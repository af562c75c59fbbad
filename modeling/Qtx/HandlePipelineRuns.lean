import Qtx.HandlePipelineSteps

/-!
# Every run of the pipeline

The consumer finds every message as the producer made it, in the order in which they were
sent, and no slot is lost: when both threads are through, all of them are free again.
-/
namespace Qtx.HandlePipeline
open SpanMemory TransitionSystems FractalArena

variable {g : Geometry} {w : Scenario} {c : SPSCRingBuffer.Capacity} {head : BitVec 64} {start : Party → ℕ}
  {s s' : State g} {id : GenID}

theorem invariant_initial (w : Scenario) (c : SPSCRingBuffer.Capacity) (start : Party → ℕ) (g : Geometry)
    (head : BitVec 64) :
    Invariant w c head (pipeline c start w g head).init where
  arena := ⟨_, FractalArenaThreads.represents_initial g start⟩
  ring := SPSCRingBuffer.invariant_initial c head GenID.null
  owned _ := by simp [pipeline, FractalArenaThreads.system, SPSCRingBuffer.system, inFlight, ProducerPc.holding]
  taken _ := by simp [pipeline, FractalArenaThreads.system, ConsumerPc.holding]
  apart _ h := by cases h
  distinct := List.nodup_nil
  producerAt := ⟨trivial, rfl⟩
  consumerAt := rfl
  sent := rfl
  received := rfl
  intact k id _ h := by simp [pipeline, SPSCRingBuffer.system] at h
  failures := ⟨rfl, rfl⟩

/-- When both threads are through, nothing is in the ring and no slot in use. -/
theorem Invariant.done (h : Invariant w c head s) (hd : s.Done w) :
    s.ring.popped = s.ring.pushed ∧ s.ring.popped.length = w.kMessages ∧ s.ring.head = s.ring.tail ∧
      s.arena.arena.usedSlots = 0 := by
  obtain ⟨⟨hproducer, hidle, hsent⟩, hconsumer, -, hreceived⟩ := hd
  obtain ⟨phase, hr⟩ := h.arena
  have hpopped := h.received
  rw [hconsumer, if_pos rfl, Nat.add_zero, hreceived] at hpopped
  have hpushed := h.sent.trans hsent
  have heq : s.ring.popped = s.ring.pushed := h.ring.shared.ordered.eq_of_length (hpopped.trans hpushed.symm)
  have hempty : inFlight s.ring = [] := by rw [inFlight, heq, List.drop_length]
  have hat : ConsumerAt w s .popping := hconsumer ▸ h.consumerAt
  have hquiescent : ∀ t, s.arena.pc t = .idle := by
    intro t
    cases t with
    | producer => exact hidle
    | consumer => exact hat
  have hnone : {slot | ∃ t, ∃ id ∈ s.arena.held t, id.id = slot} = ∅ := by
    rw [Set.eq_empty_iff_forall_notMem]
    rintro slot ⟨t, id, hid, -⟩
    cases t with
    | producer =>
      have howned := (h.owned id).mp hid
      rw [hempty, hproducer] at howned
      simp [ProducerPc.holding] at howned
    | consumer =>
      have htaken := (h.taken id).mp hid
      rw [hconsumer] at htaken
      cases htaken
  refine ⟨heq, hpopped, ?_, ?_⟩
  · rw [h.ring.shared.head, h.ring.shared.tail, heq]
  · rw [hr.usedSlots_eq hquiescent, hnone, Set.ncard_empty]

/-- In every run, however the two threads interleave: no view is refused and no message is found damaged, every
handle in the ring is valid and its slot has the bytes of its message, and when both threads are through
no slot is left in use and nothing in the ring. -/
theorem messages_intact (c : SPSCRingBuffer.Capacity) (start : Party → ℕ) (w : Scenario) (g : Geometry)
    (head : BitVec 64) {s : State g} (h : (pipeline c start w g head).Reachable s) :
    s.allocFailures = 0 ∧ s.verifyFailures = 0 ∧
    (∀ k id, s.ring.popped.length ≤ k → s.ring.pushed[k]? = some id → s.arena.arena.validate id = true ∧
      load s.arena.die (g.slotSpan id.id) = (List.range g.slotSize).map (w.payload k)) ∧
    (s.Done w → s.ring.popped = s.ring.pushed ∧ s.ring.popped.length = w.kMessages ∧ s.ring.head = s.ring.tail ∧
      s.arena.arena.usedSlots = 0) := by
  have hinv := h.invariant (invariant_initial w c start g head) (fun _ _ _ hi hs => invariant_step hi hs)
  obtain ⟨phase, hr⟩ := hinv.arena
  refine ⟨hinv.failures.1, hinv.failures.2, fun k id hk hid => ⟨?_, ?_⟩, hinv.done⟩
  · have hheld := (hinv.owned id).mpr (.inl (mem_inFlight hk hid))
    obtain ⟨-, ⟨hnull, hversion⟩, hocc⟩ := hr.passes_held hheld
    exact validate_iff.mpr ⟨hnull, isOccupied_iff.mp hocc, hversion⟩
  · exact List.map_congr_left (fun i hi => hinv.intact k id hk hid i (List.mem_range.mp hi))

/-! The producer alone sends the first of two messages, through a ring whose counters wrap. -/

def twoMessages : Scenario := ⟨64, 8, 2, fillSlot⟩

abbrev smallPipeline : System (State smallGeometry) (Party × Bool) :=
  pipeline SPSCRingBuffer.twoSlots (fun _ => 0) twoMessages smallGeometry (BitVec.allOnes 64)

@[irreducible] def sentOne : State smallGeometry := smallPipeline.after (List.replicate 269 (.producer, false))

def sentHandle : GenID := .make 0 1 3 .kFP32 .kActive

theorem reachable_sentOne : smallPipeline.Reachable sentOne := by
  unfold sentOne
  exact System.reachable_after (by decide +kernel)

theorem sentOne_pushed : sentOne.ring.pushed = [sentHandle] := by decide +kernel
theorem sentOne_popped : sentOne.ring.popped = [] := by decide +kernel

theorem sentOne_intact : sentOne.arena.arena.validate sentHandle = true ∧
    load sentOne.arena.die (smallGeometry.slotSpan sentHandle.id) =
      (List.range smallGeometry.slotSize).map (twoMessages.payload 0) := by
  have h := messages_intact SPSCRingBuffer.twoSlots (fun _ => 0) twoMessages smallGeometry (BitVec.allOnes 64)
    reachable_sentOne
  exact h.2.2.1 0 sentHandle (by rw [sentOne_popped]; exact Nat.zero_le 0) (by rw [sentOne_pushed]; rfl)

end Qtx.HandlePipeline
