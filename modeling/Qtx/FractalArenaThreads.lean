import Qtx.AxiomSelectorExclusion
import Qtx.FractalArena
import Qtx.GenerationCounters

/-!
# The arena under every interleaving

Any number of threads allocate, validate, view, write and release slots of one arena.
Each atomic access is one step of the acting thread, and so is each byte that a release
wipes; the accesses of the slot selector are those of `AxiomSelectorThreads`. A thread
writes through a handle only while it holds it, and releases a handle that it holds or
one that was released before.
-/
namespace Qtx.FractalArenaThreads
open SpanMemory TransitionSystems FractalArena GenerationCounters

/-- What a validation is for. A release is `own` when it gives up a handle of the thread. -/
inductive Call
  | validate | view
  | release (own : Bool)
  deriving DecidableEq

inductive Pc
  | idle
  | acquiring (alignmentClass : ℕ)
  | bumping (slot alignmentClass : ℕ)
  | loading (call : Call) (id : GenID)
  | testing (call : Call) (id : GenID)
  | wiping (id : GenID) (i : ℕ)
  | retiring (id : GenID)
  | freeing (id : GenID)
  | answering (call : Call) (id : GenID) (accepted : Bool)
  deriving DecidableEq

/-- `held t` are the handles that `allocate` returned to `t` and that `t` has not begun to
release. Of every released handle `retired` keeps how often its slot had been taken. -/
structure State (g : Geometry) (τ : Type*) where
  selector : AxiomSelectorThreads.State g.count τ
  versions : ℕ → BitVec 16
  die : ℕ → Byte
  pc : τ → Pc
  held : τ → Finset GenID
  retired : List (GenID × ℕ)
  uses : ℕ → ℕ

inductive Label (τ : Type*) where
  | callAllocate (t : τ) (requestedSize requestedAlign : ℕ)
  | callRelease (t : τ) (id : GenID)
  | callValidate (t : τ) (id : GenID)
  | callView (t : τ) (id : GenID)
  | write (t : τ) (id : GenID) (i : ℕ) (value : Byte)
  | act (t : τ) (spurious : Bool)

variable {g : Geometry} {τ : Type*} [DecidableEq τ]

def State.goto (s : State g τ) (t : τ) (pc : Pc) : State g τ := { s with pc := Function.update s.pc t pc }

/-- The arena that the threads share, as a whole. -/
def State.arena (s : State g τ) : FractalArena g := ⟨s.die, s.versions, s.selector.selector⟩

/-- Where `allocate` continues after a step of `acquire`. -/
def afterAcquire (alignmentClass : ℕ) : AxiomSelectorThreads.Pc → Pc
  | .returning none => .idle
  | .returning (some slot) => .bumping slot alignmentClass
  | _ => .acquiring alignmentClass

/-- Where a call continues after a validation that succeeds. -/
def passed (call : Call) (id : GenID) : Pc :=
  match call with
  | .release _ => .wiping id 0
  | call => .answering call id true

/-- The fetch-add of `allocate` and the handle it returns. -/
def State.issue (s : State g τ) (t : τ) (slot alignmentClass : ℕ) : State g τ :=
  let newVersion := s.versions slot + 1#16
  let id := GenID.make slot (newVersion.toNat &&& GenID.kMaxVersion) alignmentClass .kFP32 .kActive
  { s.goto t .idle with
    versions := Function.update s.versions slot newVersion
    held := Function.update s.held t (insert id (s.held t))
    uses := Function.update s.uses slot (s.uses slot + 1) }

/-- The fetch-add of `release`, after which the slot goes back to the selector. -/
def State.retire (s : State g τ) (t : τ) (id : GenID) (selector : AxiomSelectorThreads.State g.count τ) :
    State g τ :=
  { s.goto t (.freeing id) with
    selector := selector
    versions := Function.update s.versions id.id (s.versions id.id + 1#16)
    retired := (id, s.uses id.id) :: s.retired }

def act (start : τ → ℕ) (s : State g τ) (t : τ) (spurious : Bool) : Option (State g τ) :=
  match s.pc t with
  | .idle => none
  | .acquiring alignmentClass =>
    (AxiomSelectorThreads.act start s.selector t spurious).map (fun selector =>
      { s.goto t (afterAcquire alignmentClass (s.selector.pc t)) with selector := selector })
  | .bumping slot alignmentClass => some (s.issue t slot alignmentClass)
  | .loading call id =>
    if id.isNull then some (s.goto t (.answering call id false))
    else if id.id ≥ g.slotCount then some (s.goto t (.answering call id false))
    else if (s.versions id.id).toNat &&& GenID.kMaxVersion ≠ id.version &&& GenID.kMaxVersion then
      some (s.goto t (.answering call id false))
    else some (s.goto t (.testing call id))
  | .testing call id =>
    some (s.goto t (if s.selector.selector.isOccupied id.id then passed call id else .answering call id false))
  | .wiping id i =>
    some { s.goto t (if i + 1 < g.slotSize then .wiping id (i + 1) else .retiring id) with
      die := assign s.die (g.slotSpan id.id) i 0#8 }
  | .retiring id => (AxiomSelectorThreads.step start s.selector (.callRelease t id.id)).map (s.retire t id)
  | .freeing id =>
    (AxiomSelectorThreads.act start s.selector t spurious).map (fun selector =>
      { s.goto t (.answering (.release true) id true) with selector := selector })
  | .answering _ _ _ => some (s.goto t .idle)

def step (start : τ → ℕ) (s : State g τ) : Label τ → Option (State g τ)
  | .callAllocate t requestedSize requestedAlign =>
    if s.pc t ≠ .idle then none
    else if requestedSize = 0 || requestedSize > g.slotSize then some s
    else if requestedAlign = 0 || !isPowerOfTwo requestedAlign || requestedAlign > g.slotSize then some s
    else
      let alignmentClass := log2PowerOfTwo requestedAlign
      if alignmentClass > GenID.kMaxAlignment then some s
      else (AxiomSelectorThreads.step start s.selector (.callAcquire t)).map (fun selector =>
        { s.goto t (.acquiring alignmentClass) with selector := selector })
  | .callRelease t id =>
    if s.pc t ≠ .idle then none
    else if id ∈ s.held t then
      some { s.goto t (.loading (.release true) id) with held := Function.update s.held t ((s.held t).erase id) }
    else if id ∈ s.retired.map Prod.fst then some (s.goto t (.loading (.release false) id))
    else none
  | .callValidate t id => if s.pc t = .idle then some (s.goto t (.loading .validate id)) else none
  | .callView t id => if s.pc t = .idle then some (s.goto t (.loading .view id)) else none
  | .write t id i value =>
    if s.pc t = .idle ∧ id ∈ s.held t then some { s with die := assign s.die (g.slotSpan id.id) i value } else none
  | .act t spurious => act start s t spurious

def system (g : Geometry) (start : τ → ℕ) : System (State g τ) (Label τ) where
  init := ⟨(AxiomSelectorThreads.system g.count start).init, fun _ => 0#16, fun _ => 0#8,
    fun _ => .idle, fun _ => ∅,
    [], fun _ => 0⟩
  step := step start

/-- A released handle is released once more only before its slot has been taken 32768
further times. -/
def WithinHorizon (s : State g τ) : Label τ → Prop
  | .act t _ => ∀ r ∈ s.retired, s.pc t = .loading (.release false) r.1 → s.uses r.1.id < r.2 + 32768
  | _ => True

instance (s : State g τ) : (l : Label τ) → Decidable (WithinHorizon s l)
  | .act t _ => inferInstanceAs
    (Decidable (∀ r ∈ s.retired, s.pc t = .loading (.release false) r.1 → s.uses r.1.id < r.2 + 32768))
  | .callAllocate _ _ _ | .callRelease _ _ | .callValidate _ _ | .callView _ _ | .write _ _ _ _ => .isTrue trivial

end Qtx.FractalArenaThreads
