import Qtx.HandlePipeline

/-!
# Who owns a slot in the pipeline

A slot in use belongs to one party: to the producer from `allocate` until its handle is popped,
and to the consumer from then until it calls `release`. Whoever owns a slot is the only
one to write it, so the bytes that the producer filled in are those that the consumer verifies.
-/
namespace Qtx.SPSCRingBuffer

variable {T : Type*} {c : Capacity} {s s' : State T}

theorem ProducerPc.pending_eq_none {pc : ProducerPc T} : pc.pending = none ↔ ∃ result, pc = .idle result := by
  cases pc <;> simp [ProducerPc.pending]

theorem ConsumerPc.isIdle_iff {pc : ConsumerPc T} : pc.isIdle = true ↔ ∃ result, pc = .idle result := by
  cases pc <;> simp [ConsumerPc.isIdle]

/-- A step of `try_push` that publishes nothing. -/
theorem pushStep_quiet (hs : pushStep c s = some s') (hnot : ∀ value t, s.producer ≠ .storeTail value t) :
    s'.pushed = s.pushed ∧ ∀ value, s'.producer.pending = some value → s.producer.pending = some value := by
  unfold pushStep at hs
  cases hpc : s.producer with
  | idle _ => simp [hpc] at hs
  | loadTail value =>
    simp only [hpc] at hs
    split_ifs at hs
    all_goals cases hs; exact ⟨rfl, fun _ hv => hv⟩
  | loadHead value currentTail =>
    simp only [hpc] at hs
    split_ifs at hs
    · cases hs
      exact ⟨rfl, fun _ hv => by cases hv⟩
    · cases hs
      exact ⟨rfl, fun _ hv => hv⟩
  | copySlot value currentTail =>
    simp only [hpc] at hs
    cases hs
    exact ⟨rfl, fun _ hv => hv⟩
  | storeTail value currentTail => exact absurd hpc (hnot value currentTail)

/-- A step of `try_pop` that takes nothing. -/
theorem popStep_quiet (hs : popStep c s = some s') (hnot : ∀ value h, s.consumer ≠ .storeHead value h) :
    s'.popped = s.popped := by
  unfold popStep at hs
  cases hpc : s.consumer with
  | idle _ => simp [hpc] at hs
  | loadHead =>
    simp only [hpc] at hs
    split_ifs at hs
    all_goals cases hs; rfl
  | loadTail currentHead =>
    simp only [hpc] at hs
    split_ifs at hs
    all_goals cases hs; rfl
  | copySlot currentHead =>
    simp only [hpc] at hs
    cases hs
    rfl
  | storeHead value currentHead => exact absurd hpc (hnot value currentHead)

end Qtx.SPSCRingBuffer

namespace Qtx.HandlePipeline
open SpanMemory TransitionSystems FractalArena

variable {g : Geometry}

/-- The handles in the ring, in the order in which they were pushed. -/
def inFlight (ring : SPSCRingBuffer.State GenID) : List GenID := ring.pushed.drop ring.popped.length

/-- The handle of the message that the producer makes. -/
def ProducerPc.holding : ProducerPc → Option GenID
  | .allocating => none
  | .viewing id | .filling id _ | .pushing id => some id

/-- The handle that the consumer reads, until it calls `release` for it. -/
def ConsumerPc.holding (pc : FractalArenaThreads.Pc) : ConsumerPc → Option GenID
  | .popping => none
  | .viewing id | .verifying id _ => some id
  | .releasing id => if pc = .idle then some id else none

/-- The slot of the handle has these bytes. -/
def Shows (arena : FractalArenaThreads.State g Party) (id : GenID) (bytes : ℕ → Byte) : Prop :=
  ∀ i < g.slotSize, arena.die ((g.slotSpan id.id).base + i) = bytes i

variable (w : Scenario)

/-- Where the producer stands, and what it has filled in there. -/
def ProducerAt (s : State g) : ProducerPc → Prop
  | .allocating => (s.arena.pc .producer).Allocating ∧ s.ring.producer.pending = none
  | .viewing id =>
      (s.arena.pc .producer = .idle ∨ (s.arena.pc .producer).Viewing id) ∧ s.ring.producer.pending = none
  | .filling id i => s.arena.pc .producer = .idle ∧ s.ring.producer.pending = none ∧ i < g.slotSize ∧
      ∀ j < i, s.arena.die ((g.slotSpan id.id).base + j) = w.payload s.sent j
  | .pushing id => s.arena.pc .producer = .idle ∧ (∀ value, s.ring.producer.pending = some value → value = id) ∧
      Shows s.arena id (w.payload s.sent)

/-- Where the consumer stands, and what it is to see there. -/
def ConsumerAt (s : State g) : ConsumerPc → Prop
  | .popping => s.arena.pc .consumer = .idle
  | .viewing id => (s.arena.pc .consumer = .idle ∨ (s.arena.pc .consumer).Viewing id) ∧
      s.ring.consumer.isIdle = true ∧ Shows s.arena id (w.payload s.received)
  | .verifying id i => s.arena.pc .consumer = .idle ∧ i < g.slotSize ∧
      s.ring.consumer.isIdle = true ∧ Shows s.arena id (w.payload s.received)
  | .releasing id => (s.arena.pc .consumer = .idle ∨ (s.arena.pc .consumer).Releasing id) ∧
      s.ring.consumer.isIdle = true

structure Invariant (c : SPSCRingBuffer.Capacity) (head : BitVec 64) (s : State g) : Prop where
  arena : ∃ phase, FractalArenaThreads.Represents s.arena phase
  ring : SPSCRingBuffer.Invariant c head s.ring
  owned : ∀ id, id ∈ s.arena.held .producer ↔ id ∈ inFlight s.ring ∨ s.producer.holding = some id
  taken : ∀ id, id ∈ s.arena.held .consumer ↔ s.consumer.holding (s.arena.pc .consumer) = some id
  apart : ∀ id, s.producer.holding = some id → id ∉ inFlight s.ring
  distinct : (inFlight s.ring).Nodup
  producerAt : ProducerAt w s s.producer
  consumerAt : ConsumerAt w s s.consumer
  sent : s.ring.pushed.length = s.sent
  received : s.ring.popped.length = s.received + if s.consumer = .popping then 0 else 1
  intact : ∀ k id, s.ring.popped.length ≤ k → s.ring.pushed[k]? = some id → Shows s.arena id (w.payload k)
  failures : s.allocFailures = 0 ∧ s.verifyFailures = 0

variable {w} {c : SPSCRingBuffer.Capacity} {head : BitVec 64} {start : Party → ℕ} {s s' : State g} {id : GenID}

section Frames

variable {arena arena' : FractalArenaThreads.State g Party}

theorem Shows.congr {bytes : ℕ → Byte} (h : Shows arena id bytes)
    (hdie : ∀ a ∈ g.slotSpan id.id, arena'.die a = arena.die a) : Shows arena' id bytes :=
  fun i hi => (hdie _ ⟨Nat.le_add_right _ _, Nat.add_lt_add_left hi _⟩).trans (h i hi)

theorem ProducerAt.congr {p : ProducerPc} (h : ProducerAt w s p)
    (hpc : s'.arena.pc .producer = s.arena.pc .producer) (hring : s'.ring.producer = s.ring.producer)
    (hsent : s'.sent = s.sent)
    (hdie : ∀ id, p.holding = some id → ∀ a ∈ g.slotSpan id.id, s'.arena.die a = s.arena.die a) :
    ProducerAt w s' p := by
  cases p with
  | allocating => exact ⟨hpc ▸ h.1, hring ▸ h.2⟩
  | viewing id => exact ⟨hpc ▸ h.1, hring ▸ h.2⟩
  | filling id i =>
    obtain ⟨hidle, hpend, hi, hfilled⟩ := h
    refine ⟨hpc ▸ hidle, hring ▸ hpend, hi, fun j hj => ?_⟩
    have hmem : (g.slotSpan id.id).base + j ∈ g.slotSpan id.id :=
      ⟨Nat.le_add_right _ _, Nat.add_lt_add_left (Nat.lt_trans hj hi) _⟩
    rw [hdie id rfl _ hmem, hsent]
    exact hfilled j hj
  | pushing id =>
    obtain ⟨hidle, hpend, hshows⟩ := h
    exact ⟨hpc ▸ hidle, hring ▸ hpend, hsent ▸ hshows.congr (hdie id rfl)⟩

theorem ConsumerAt.congr {p : ConsumerPc} (h : ConsumerAt w s p)
    (hpc : s'.arena.pc .consumer = s.arena.pc .consumer) (hring : s'.ring.consumer = s.ring.consumer)
    (hreceived : s'.received = s.received)
    (hdie : ∀ id, p.holding (s.arena.pc .consumer) = some id →
      ∀ a ∈ g.slotSpan id.id, s'.arena.die a = s.arena.die a) :
    ConsumerAt w s' p := by
  cases p with
  | popping => exact hpc.trans h
  | viewing id =>
    obtain ⟨hview, hidle, hshows⟩ := h
    exact ⟨hpc ▸ hview, hring ▸ hidle, hreceived ▸ hshows.congr (hdie id rfl)⟩
  | verifying id i =>
    obtain ⟨harena, hi, hidle, hshows⟩ := h
    exact ⟨hpc.trans harena, hi, hring ▸ hidle, hreceived ▸ hshows.congr (hdie id rfl)⟩
  | releasing id => exact ⟨hpc ▸ h.1, hring ▸ h.2⟩

theorem mem_inFlight {k : ℕ} (hk : s.ring.popped.length ≤ k) (hid : s.ring.pushed[k]? = some id) :
    id ∈ inFlight s.ring := by
  obtain ⟨j, rfl⟩ := Nat.exists_eq_add_of_le hk
  rw [← List.getElem?_drop] at hid
  exact List.mem_of_getElem? hid

end Frames

section Moves

variable {arena' : FractalArenaThreads.State g Party} {l : FractalArenaThreads.Label Party}

/-- A step of the arena by the producer. -/
theorem Invariant.producerMove (h : Invariant w c head s) (p : ProducerPc)
    (hs : FractalArenaThreads.step start s.arena l = some arena') (hl : l.thread = .producer)
    (hok : FractalArenaThreads.WithinHorizon s.arena l)
    (owned : ∀ id, id ∈ arena'.held .producer ↔ id ∈ inFlight s.ring ∨ p.holding = some id)
    (apart : ∀ id, p.holding = some id → id ∉ inFlight s.ring)
    (untouched : ∀ id i value, l = .write .producer id i value → id ∉ inFlight s.ring)
    (producerAt : ProducerAt w { s with arena := arena', producer := p } p) :
    Invariant w c head { s with arena := arena', producer := p } := by
  obtain ⟨phase, hr⟩ := h.arena
  have hne : Party.consumer ≠ l.thread := by
    rw [hl]
    decide
  obtain ⟨hpc, hheld⟩ := FractalArenaThreads.step_others hs hne
  have hbytes := (hr.isolated hs).bytes
  have hflying : ∀ id ∈ inFlight s.ring, ∀ a ∈ g.slotSpan id.id, arena'.die a = s.arena.die a := by
    intro id hid
    rcases hbytes .producer id ((h.owned id).mpr (.inl hid)) with hsame | ⟨i, value, rfl⟩
    · exact hsame
    · exact absurd hid (untouched id i value rfl)
  have htaken : ∀ id, s.consumer.holding (s.arena.pc .consumer) = some id →
      ∀ a ∈ g.slotSpan id.id, arena'.die a = s.arena.die a := by
    intro id hid
    rcases hbytes .consumer id ((h.taken id).mpr hid) with hsame | ⟨i, value, rfl⟩
    · exact hsame
    · exact absurd rfl hne
  refine ⟨FractalArenaThreads.step_represents hr hok hs, h.ring, owned, ?_, apart, h.distinct, producerAt,
    h.consumerAt.congr hpc rfl rfl htaken, h.sent, h.received, ?_, h.failures⟩
  · intro id
    change id ∈ arena'.held .consumer ↔ s.consumer.holding (arena'.pc .consumer) = some id
    rw [hheld, hpc]
    exact h.taken id
  · intro k id hk hid
    exact (h.intact k id hk hid).congr (hflying id (mem_inFlight hk hid))

/-- A step of the arena by the consumer, which writes nothing itself. -/
theorem Invariant.consumerMove (h : Invariant w c head s) (p : ConsumerPc) (received : ℕ)
    (hs : FractalArenaThreads.step start s.arena l = some arena') (hl : l.thread = .consumer)
    (hok : FractalArenaThreads.WithinHorizon s.arena l) (hreads : ∀ t id i value, l ≠ .write t id i value)
    (taken : ∀ id, id ∈ arena'.held .consumer ↔ p.holding (arena'.pc .consumer) = some id)
    (hreceived : s.ring.popped.length = received + if p = .popping then 0 else 1)
    (consumerAt : ConsumerAt w { s with arena := arena', consumer := p, received := received } p) :
    Invariant w c head { s with arena := arena', consumer := p, received := received } := by
  obtain ⟨phase, hr⟩ := h.arena
  have hne : Party.producer ≠ l.thread := by
    rw [hl]
    decide
  obtain ⟨hpc, hheld⟩ := FractalArenaThreads.step_others hs hne
  have hbytes : ∀ id ∈ s.arena.held .producer, ∀ a ∈ g.slotSpan id.id, arena'.die a = s.arena.die a := by
    intro id hid
    rcases (hr.isolated hs).bytes .producer id hid with hsame | ⟨i, value, heq⟩
    · exact hsame
    · exact absurd heq (hreads .producer id i value)
  refine ⟨FractalArenaThreads.step_represents hr hok hs, h.ring, ?_, taken, h.apart, h.distinct, ?_,
    consumerAt, h.sent, hreceived, ?_, h.failures⟩
  · intro id
    change id ∈ arena'.held .producer ↔ _
    rw [hheld]
    exact h.owned id
  · exact h.producerAt.congr hpc rfl rfl (fun id hid => hbytes id ((h.owned id).mpr (.inr hid)))
  · intro k id hk hid
    exact (h.intact k id hk hid).congr (hbytes id ((h.owned id).mpr (.inl (mem_inFlight hk hid))))

/-- A step of the ring that neither publishes nor takes a handle. -/
theorem Invariant.ringMove (h : Invariant w c head s) {l : SPSCRingBuffer.Label GenID}
    {ring : SPSCRingBuffer.State GenID} (hs : SPSCRingBuffer.step c s.ring l = some ring)
    (hpushed : ring.pushed = s.ring.pushed) (hpopped : ring.popped = s.ring.popped)
    (producerAt : ProducerAt w { s with ring := ring } s.producer)
    (consumerAt : ConsumerAt w { s with ring := ring } s.consumer) :
    Invariant w c head { s with ring := ring } := by
  have hflying : inFlight ring = inFlight s.ring := by
    rw [inFlight, inFlight, hpushed, hpopped]
  refine ⟨h.arena, SPSCRingBuffer.invariant_step h.ring hs, ?_, h.taken, ?_, ?_, producerAt, consumerAt,
    (congrArg List.length hpushed).trans h.sent, (congrArg List.length hpopped).trans h.received, ?_, h.failures⟩
  · dsimp only
    rw [hflying]
    exact h.owned
  · dsimp only
    rw [hflying]
    exact h.apart
  · dsimp only
    rw [hflying]
    exact h.distinct
  · change ∀ k id, ring.popped.length ≤ k → ring.pushed[k]? = some id → _
    rw [hpushed, hpopped]
    exact h.intact

/-- The store of the tail puts the handle of the next message in flight. -/
theorem Invariant.publish (h : Invariant w c head s) {currentTail : BitVec 64} {value : GenID}
    {ring : SPSCRingBuffer.State GenID} (hp : s.producer = .pushing id)
    (hpc : s.ring.producer = .storeTail value currentTail)
    (hs : SPSCRingBuffer.step c s.ring .push = some ring) :
    Invariant w c head { s with ring := ring, producer := .allocating, sent := s.sent + 1 } := by
  obtain ⟨hidle, hvalue, hshows⟩ : ProducerAt w s (.pushing id) := hp ▸ h.producerAt
  obtain rfl : value = id := hvalue value (by rw [hpc]; rfl)
  obtain ⟨hpushed, hpopped, hproducer, hconsumer⟩ : ring.pushed = s.ring.pushed ++ [value] ∧
    ring.popped = s.ring.popped ∧
      ring.producer.pending = none ∧ ring.consumer = s.ring.consumer := by
    simp only [SPSCRingBuffer.step, SPSCRingBuffer.pushStep, hpc, Option.some.injEq] at hs
    subst hs
    exact ⟨rfl, rfl, rfl, rfl⟩
  have hflying : inFlight ring = inFlight s.ring ++ [value] := by
    rw [inFlight, inFlight, hpushed, hpopped, List.drop_append_of_le_length h.ring.shared.length_le]
  have happart := h.apart value (by rw [hp]; rfl)
  refine ⟨h.arena, SPSCRingBuffer.invariant_step h.ring hs, ?_, h.taken, ?_, ?_, ?_, ?_, ?_, ?_, ?_, h.failures⟩
  · intro other
    dsimp only
    rw [hflying, List.mem_append, List.mem_singleton, h.owned, hp]
    simp [ProducerPc.holding, eq_comm]
  · intro other hother
    cases hother
  · dsimp only
    rw [hflying, List.nodup_append]
    refine ⟨h.distinct, List.nodup_singleton _, fun a ha b hb => ?_⟩
    rw [List.mem_singleton] at hb
    rintro rfl
    exact happart (hb ▸ ha)
  · exact ⟨by rw [hidle]; trivial, hproducer⟩
  · exact h.consumerAt.congr rfl hconsumer rfl (fun _ _ _ _ => rfl)
  · simp [hpushed, h.sent]
  · exact (congrArg List.length hpopped).trans h.received
  · intro k other hk hother
    dsimp only at hk hother
    rw [hpushed] at hother
    rw [hpopped] at hk
    rcases Nat.lt_or_ge k s.ring.pushed.length with hlt | hge
    · rw [List.getElem?_append_left hlt] at hother
      exact h.intact k other hk hother
    · have hlast := (List.getElem?_eq_some_iff.mp hother).1
      rw [List.length_append, List.length_singleton] at hlast
      obtain rfl : k = s.ring.pushed.length := by omega
      rw [List.getElem?_concat_length, Option.some.injEq] at hother
      rw [← hother, h.sent]
      exact hshows

/-- The store of the head makes the consumer the owner of the first handle in flight. -/
theorem Invariant.take (h : Invariant w c head s) {currentHead : BitVec 64} {ring : SPSCRingBuffer.State GenID}
    (hp : s.consumer = .popping) (hpc : s.ring.consumer = .storeHead id currentHead)
    (hs : SPSCRingBuffer.step c s.ring .pop = some ring) :
    Invariant w c head { s with
      ring := ring, arena := s.arena.give id .producer .consumer, consumer := .viewing id } := by
  obtain ⟨phase, hr⟩ := h.arena
  have hidle : s.arena.pc .consumer = .idle := by
    have hat := h.consumerAt
    rw [hp] at hat
    exact hat
  obtain ⟨hfirst, hlt⟩ : s.ring.pushed[s.ring.popped.length]? = some id ∧
    s.ring.popped.length < s.ring.pushed.length := by
    obtain ⟨seen, -, -, hseen, hat⟩ := h.ring.consumer
    rw [hpc] at hat
    exact ⟨hat.2.2, hat.2.1.trans_le hseen⟩
  obtain ⟨hpushed, hpopped, hproducer, hconsumer⟩ : ring.pushed = s.ring.pushed ∧
    ring.popped = s.ring.popped ++ [id] ∧
      ring.producer = s.ring.producer ∧ ring.consumer.isIdle = true := by
    simp only [SPSCRingBuffer.step, SPSCRingBuffer.popStep, hpc, Option.some.injEq] at hs
    subst hs
    exact ⟨rfl, rfl, rfl, rfl⟩
  have hflying : inFlight s.ring = id :: inFlight ring := by
    rw [List.getElem?_eq_getElem hlt, Option.some.injEq] at hfirst
    rw [inFlight, inFlight, List.drop_eq_getElem_cons hlt, hfirst, hpushed, hpopped, List.length_append,
      List.length_singleton]
  have hheld : id ∈ s.arena.held .producer := (h.owned id).mpr (.inl (by rw [hflying]; exact List.mem_cons_self))
  have hparties : Party.producer ≠ Party.consumer := by decide
  have hnodup := h.distinct
  rw [hflying, List.nodup_cons] at hnodup
  have happart : ∀ other, s.producer.holding = some other → other ≠ id := by
    rintro other hother rfl
    exact h.apart other hother (by rw [hflying]; exact List.mem_cons_self)
  have hempty : ∀ other, other ∉ s.arena.held .consumer := by
    intro other hother
    have htaken := (h.taken other).mp hother
    rw [hp] at htaken
    cases htaken
  refine ⟨⟨_, hr.give hparties hheld hidle⟩, SPSCRingBuffer.invariant_step h.ring hs, ?_, ?_, ?_, ?_, ?_,
    ?_, ?_, ?_, ?_,
    h.failures⟩
  · intro other
    dsimp only
    rw [FractalArenaThreads.give_held_from hparties, Finset.mem_erase, h.owned, hflying, List.mem_cons]
    constructor
    · rintro ⟨hne, (rfl | hmem) | hhold⟩
      · exact absurd rfl hne
      · exact .inl hmem
      · exact .inr hhold
    · rintro (hmem | hhold)
      · refine ⟨?_, .inl (.inr hmem)⟩
        rintro rfl
        exact hnodup.1 hmem
      · exact ⟨happart other hhold, .inr hhold⟩
  · intro other
    dsimp only
    rw [FractalArenaThreads.give_held_to, Finset.mem_insert, or_iff_left (hempty other)]
    simp [ConsumerPc.holding, eq_comm]
  · intro other hother hmem
    exact h.apart other hother (by rw [hflying]; exact List.mem_cons_of_mem _ hmem)
  · exact hnodup.2
  · exact h.producerAt.congr rfl hproducer rfl (fun _ _ _ _ => rfl)
  · refine ⟨.inl hidle, hconsumer, ?_⟩
    have hreceived := h.received
    rw [hp, if_pos rfl, Nat.add_zero] at hreceived
    have hshows := h.intact _ id le_rfl hfirst
    rw [hreceived] at hshows
    exact hshows
  · exact (congrArg List.length hpushed).trans h.sent
  · have hreceived := h.received
    rw [hp, if_pos rfl, Nat.add_zero] at hreceived
    simp [hpopped, hreceived]
  · intro k other hk hother
    dsimp only at hk hother
    rw [hpopped, List.length_append, List.length_singleton] at hk
    rw [hpushed] at hother
    exact h.intact k other (by omega) hother

end Moves

end Qtx.HandlePipeline
