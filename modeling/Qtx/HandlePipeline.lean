import Qtx.FractalArenaCalls
import Qtx.FractalArenaHandover
import Qtx.SPSCRingBufferFifo

/-!
# A producer and a consumer that share handles

The producer allocates a slot of the arena, fills it with the bytes of its next message and
pushes the handle into the ring. The consumer pops handles, views and verifies the bytes
and releases the slot. Both loops spin where the arena is exhausted, the ring full or empty.
Each atomic access to the arena or the ring is one step, and so is each byte that the
producer fills in or the consumer verifies.
-/
namespace Qtx.HandlePipeline
open SpanMemory TransitionSystems FractalArena

inductive Party
  | producer
  | consumer
deriving DecidableEq

inductive ProducerPc
  | allocating
  | viewing (id : GenID)
  | filling (id : GenID) (i : ℕ)
  | pushing (id : GenID)
deriving DecidableEq

inductive ConsumerPc
  | popping
  | viewing (id : GenID)
  | verifying (id : GenID) (i : ℕ)
  | releasing (id : GenID)
deriving DecidableEq

/-- Byte `i` of message `k` is `payload k i`. -/
structure Scenario where
  requestedSize : ℕ
  requestedAlign : ℕ
  kMessages : ℕ
  payload : ℕ → ℕ → Byte

/-- `sent` and `received` are the loop variables of the two threads. -/
structure State (g : Geometry) where
  arena : FractalArenaThreads.State g Party
  ring : SPSCRingBuffer.State GenID
  producer : ProducerPc
  consumer : ConsumerPc
  sent : ℕ
  received : ℕ
  allocFailures : ℕ
  verifyFailures : ℕ

variable {g : Geometry}

variable (c : SPSCRingBuffer.Capacity) (start : Party → ℕ) (w : Scenario)

def arenaStep (s : State g) (l : FractalArenaThreads.Label Party) : Option (State g) :=
  (FractalArenaThreads.step start s.arena l).map fun arena => { s with arena := arena }

def ringStep (s : State g) (l : SPSCRingBuffer.Label GenID) : Option (State g) :=
  (SPSCRingBuffer.step c s.ring l).map fun ring => { s with ring := ring }

def producerStep (s : State g) (spurious : Bool) : Option (State g) :=
  match s.producer with
  | .allocating => match s.arena.pc .producer with
    | .idle =>
      if s.sent < w.kMessages then arenaStep start s (.callAllocate .producer w.requestedSize w.requestedAlign)
      else none
    | .bumping slot alignmentClass => (arenaStep start s (.act .producer spurious)).map fun s' =>
      { s' with producer := .viewing (s.arena.handle slot alignmentClass) }
    | _ => arenaStep start s (.act .producer spurious)
  | .viewing id => match s.arena.pc .producer with
    | .idle => arenaStep start s (.callView .producer id)
    | .answering _ _ true => (arenaStep start s (.act .producer spurious)).map fun s' =>
      { s' with producer := .filling id 0 }
    | .answering _ _ false => (arenaStep start s (.act .producer spurious)).map fun s' =>
      { s' with producer := .allocating, sent := s.sent + 1, allocFailures := s.allocFailures + 1 }
    | _ => arenaStep start s (.act .producer spurious)
  | .filling id i => (arenaStep start s (.write .producer id i (w.payload s.sent i))).map fun s' =>
    { s' with producer := if i + 1 < g.slotSize then .filling id (i + 1) else .pushing id }
  | .pushing id => match s.ring.producer with
    | .idle _ => ringStep c s (.callPush id)
    | .storeTail _ _ => (ringStep c s .push).map fun s' => { s' with producer := .allocating, sent := s.sent + 1 }
    | _ => ringStep c s .push

def consumerStep (s : State g) (spurious : Bool) : Option (State g) :=
  match s.consumer with
  | .popping => match s.ring.consumer with
    | .idle _ => if s.received < w.kMessages then ringStep c s .callPop else none
    | .storeHead id _ => (ringStep c s .pop).map fun s' =>
      { s' with arena := s.arena.give id .producer .consumer, consumer := .viewing id }
    | _ => ringStep c s .pop
  | .viewing id => match s.arena.pc .consumer with
    | .idle => arenaStep start s (.callView .consumer id)
    | .answering _ _ true => (arenaStep start s (.act .consumer spurious)).map fun s' =>
      { s' with consumer := .verifying id 0 }
    | .answering _ _ false => (arenaStep start s (.act .consumer spurious)).map fun s' =>
      { s' with consumer := .popping, received := s.received + 1, verifyFailures := s.verifyFailures + 1 }
    | _ => arenaStep start s (.act .consumer spurious)
  | .verifying id i =>
    if s.arena.die ((g.slotSpan id.id).base + i) = w.payload s.received i then
      some { s with consumer := if i + 1 < g.slotSize then .verifying id (i + 1) else .releasing id }
    else some { s with consumer := .releasing id, verifyFailures := s.verifyFailures + 1 }
  | .releasing id => match s.arena.pc .consumer with
    | .idle => arenaStep start s (.callRelease .consumer id)
    | .answering _ _ _ => (arenaStep start s (.act .consumer spurious)).map fun s' =>
      { s' with consumer := .popping, received := s.received + 1 }
    | _ => arenaStep start s (.act .consumer spurious)

/-- A label is the party that moves, and whether a compare-exchange of its step fails spuriously. -/
def pipeline (g : Geometry) (head : BitVec 64) : System (State g) (Party × Bool) where
  init := ⟨(FractalArenaThreads.system g start).init, (SPSCRingBuffer.system c head .null).init,
    .allocating, .popping, 0, 0, 0, 0⟩
  step s
    | (.producer, spurious) => producerStep c start w s spurious
    | (.consumer, spurious) => consumerStep c start w s spurious

def kChecksumSeed : ℕ := 0x9E3779B97F4A7C15

/-- The bytes of the integration tests: the number of the message, and a pattern made from it. -/
def fillSlot (messageId i : ℕ) : Byte :=
  if i < 8 then BitVec.ofNat 8 (messageId >>> (8 * i)) else BitVec.ofNat 8 ((messageId ^^^ kChecksumSeed) + i)

/-- Both threads have run to the end of their loops. -/
def State.Done (s : State g) : Prop :=
  (s.producer = .allocating ∧ s.arena.pc .producer = .idle ∧ s.sent = w.kMessages) ∧
  s.consumer = .popping ∧ (∃ result, s.ring.consumer = .idle result) ∧ s.received = w.kMessages

end Qtx.HandlePipeline
