import Qtx.SPSCRingBufferFifo
import Qtx.FairSchedules

/-!
# The waiting loops of the ring

One thread hands the values of a list to `wait_push`, another one calls `wait_pop` a number of
times. A failed try costs a hint and starts the next one. The threads stop when no values are
left to push and no pops to make; whether they get there depends on how many of each there are.
-/
namespace Qtx.SPSCRingBuffer
open TransitionSystems

def kSpinTries : ℕ := 64

/-- The counter of a waiting loop. `spins` and `yields` are not in the source: they count the hints that
the loop has issued. -/
structure BackOff where
  tries : ℕ
  spins : ℕ
  yields : ℕ
  bounded : tries ≤ kSpinTries
  spins_eq : spins = kSpinTries * yields + tries

def BackOff.start : BackOff := ⟨0, 0, 0, Nat.zero_le _, rfl⟩

/-- `if (tries++ < kSpinTries)` a pause of the processor, else a yield to the scheduler. -/
def BackOff.hint (b : BackOff) : BackOff :=
  if h : b.tries < kSpinTries then ⟨b.tries + 1, b.spins + 1, b.yields, h, by rw [b.spins_eq, Nat.add_assoc]⟩
  else
    have hfull : b.tries = kSpinTries := Nat.le_antisymm b.bounded (Nat.le_of_not_lt h)
    ⟨0, b.spins, b.yields + 1, Nat.zero_le _, by rw [b.spins_eq, hfull, Nat.mul_succ, Nat.add_zero]⟩

inductive PusherPc (T : Type*)
  | outside
  | waiting (value : T) (loop : BackOff)

inductive PopperPc
  | outside
  | waiting (loop : BackOff)

structure WaitState (T : Type*) where
  ring : State T
  toPush : List T
  pusher : PusherPc T
  toPop : ℕ
  popper : PopperPc
  received : List T

inductive Side
  | producer
  | consumer
deriving DecidableEq

variable {T : Type*} (c : Capacity)

/-- One step of the thread that pushes: the call, a step inside `try_push`, the return, or another try. -/
def waitPushStep (s : WaitState T) : Option (WaitState T) :=
  match s.pusher, s.ring.producer with
  | .outside, _ => match s.toPush with
    | [] => none
    | value :: rest => (step c s.ring (.callPush value)).map fun ring =>
      { s with ring := ring, toPush := rest, pusher := .waiting value .start }
  | .waiting _ _, .idle (some true) => some { s with pusher := .outside }
  | .waiting value loop, .idle _ => (step c s.ring (.callPush value)).map fun ring =>
      { s with ring := ring, pusher := .waiting value loop.hint }
  | .waiting _ _, _ => (pushStep c s.ring).map fun ring => { s with ring := ring }

/-- One step of the thread that pops. -/
def waitPopStep (s : WaitState T) : Option (WaitState T) :=
  match s.popper, s.ring.consumer with
  | .outside, _ => match s.toPop with
    | 0 => none
    | n + 1 => (step c s.ring .callPop).map fun ring =>
      { s with ring := ring, toPop := n, popper := .waiting .start }
  | .waiting _, .idle (some (some value)) =>
    some { s with popper := .outside, received := s.received ++ [value] }
  | .waiting loop, .idle _ => (step c s.ring .callPop).map fun ring =>
      { s with ring := ring, popper := .waiting loop.hint }
  | .waiting _, _ => (popStep c s.ring).map fun ring => { s with ring := ring }

/-- The values `xs` are pushed and `n` values are popped. -/
def waits (start : BitVec 64) (blank : T) (xs : List T) (n : ℕ) : System (WaitState T) Side where
  init := ⟨(system c start blank).init, xs, .outside, n, .outside, []⟩
  step s
    | .producer => waitPushStep c s
    | .consumer => waitPopStep c s

def WaitState.ProducerDone (s : WaitState T) : Prop := s.toPush = [] ∧ s.pusher = .outside

def WaitState.ConsumerDone (s : WaitState T) : Prop := s.toPop = 0 ∧ s.popper = .outside

/-- The values of `xs` that are not in the ring yet are those of the thread that pushes. -/
def Pushing (xs : List T) (s : WaitState T) : Prop :=
  match s.pusher with
  | .outside => (∃ result, s.ring.producer = .idle result) ∧ s.ring.pushed ++ s.toPush = xs
  | .waiting value _ =>
    (s.ring.producer.pending = some value ∨ s.ring.producer = .idle (some false)) ∧
      s.ring.pushed ++ value :: s.toPush = xs ∨
    s.ring.producer = .idle (some true) ∧ s.ring.pushed ++ s.toPush = xs

/-- Of the `n` calls those that have taken a value have returned it, but for the last one. -/
def Popping (n : ℕ) (s : WaitState T) : Prop :=
  match s.popper with
  | .outside => (∃ result, s.ring.consumer = .idle result) ∧ s.received = s.ring.popped ∧
      s.ring.popped.length + s.toPop = n
  | .waiting _ =>
    (s.ring.consumer.isIdle = false ∨ s.ring.consumer = .idle (some none)) ∧
      s.received = s.ring.popped ∧ s.ring.popped.length + s.toPop + 1 = n ∨
    ∃ value, s.ring.consumer = .idle (some (some value)) ∧ s.received ++ [value] = s.ring.popped ∧
      s.ring.popped.length + s.toPop = n

structure WaitInvariant (start : BitVec 64) (xs : List T) (n : ℕ) (s : WaitState T) : Prop where
  ring : Invariant c start s.ring
  pushing : Pushing xs s
  popping : Popping n s

variable {c} {start : BitVec 64} {blank : T} {xs : List T} {n : ℕ} {s s' : WaitState T}

/-! What one step can do. -/

theorem waitPush_cases (h : Pushing xs s) (hs : waitPushStep c s = some s') :
    (∃ value rest, s.pusher = .outside ∧ s.toPush = value :: rest ∧
      s' = { s with
        ring := { s.ring with producer := .loadTail value }, toPush := rest, pusher := .waiting value .start }) ∨
    (∃ value loop, s.pusher = .waiting value loop ∧ s.ring.producer = .idle (some true) ∧
      s' = { s with pusher := .outside }) ∨
    (∃ value loop, s.pusher = .waiting value loop ∧ s.ring.producer = .idle (some false) ∧
      s' = { s with ring := { s.ring with producer := .loadTail value }, pusher := .waiting value loop.hint }) ∨
    ∃ value loop ring, s.pusher = .waiting value loop ∧ s.ring.producer.pending = some value ∧
      pushStep c s.ring = some ring ∧ s' = { s with ring := ring } := by
  cases hp : s.pusher with
  | outside =>
    simp only [Pushing, hp] at h
    obtain ⟨⟨result, hidle⟩, -⟩ := h
    cases hl : s.toPush with
    | nil => simp [waitPushStep, hp, hl] at hs
    | cons value rest =>
      simp only [waitPushStep, hp, hl, step, hidle, Option.map_some, Option.some.injEq] at hs
      exact .inl ⟨value, rest, rfl, rfl, hs.symm⟩
  | waiting value loop =>
    simp only [Pushing, hp] at h
    rcases h with ⟨hpend | hfalse, -⟩ | ⟨htrue, -⟩
    · refine .inr (.inr (.inr ⟨value, loop, ?_⟩))
      cases hpc : s.ring.producer with
      | idle _ => simp [hpc, ProducerPc.pending] at hpend
      | _ =>
        simp only [waitPushStep, hp, hpc, Option.map_eq_some_iff] at hs
        obtain ⟨ring, hstep, rfl⟩ := hs
        exact ⟨ring, rfl, hpc ▸ hpend, hstep, rfl⟩
    · simp only [waitPushStep, hp, step, hfalse, Option.map_some, Option.some.injEq] at hs
      exact .inr (.inr (.inl ⟨value, loop, rfl, hfalse, hs.symm⟩))
    · simp only [waitPushStep, hp, htrue, Option.some.injEq] at hs
      exact .inr (.inl ⟨value, loop, rfl, htrue, hs.symm⟩)

theorem waitPop_cases (h : Popping n s) (hs : waitPopStep c s = some s') :
    (∃ m, s.popper = .outside ∧ s.toPop = m + 1 ∧
      s' = { s with ring := { s.ring with consumer := .loadHead }, toPop := m, popper := .waiting .start }) ∨
    (∃ value loop, s.popper = .waiting loop ∧ s.ring.consumer = .idle (some (some value)) ∧
      s' = { s with popper := .outside, received := s.received ++ [value] }) ∨
    (∃ loop, s.popper = .waiting loop ∧ s.ring.consumer = .idle (some none) ∧
      s' = { s with ring := { s.ring with consumer := .loadHead }, popper := .waiting loop.hint }) ∨
    ∃ loop ring, s.popper = .waiting loop ∧ s.ring.consumer.isIdle = false ∧
      popStep c s.ring = some ring ∧ s' = { s with ring := ring } := by
  cases hp : s.popper with
  | outside =>
    simp only [Popping, hp] at h
    obtain ⟨⟨result, hidle⟩, -⟩ := h
    cases hl : s.toPop with
    | zero => simp [waitPopStep, hp, hl] at hs
    | succ m =>
      simp only [waitPopStep, hp, hl, step, hidle, Option.map_some, Option.some.injEq] at hs
      exact .inl ⟨m, rfl, rfl, hs.symm⟩
  | waiting loop =>
    simp only [Popping, hp] at h
    rcases h with ⟨hbusy | hnone, -⟩ | ⟨value, hsome, -⟩
    · refine .inr (.inr (.inr ⟨loop, ?_⟩))
      cases hpc : s.ring.consumer with
      | idle _ => simp [hpc, ConsumerPc.isIdle] at hbusy
      | _ =>
        simp only [waitPopStep, hp, hpc, Option.map_eq_some_iff] at hs
        obtain ⟨ring, hstep, rfl⟩ := hs
        exact ⟨ring, rfl, rfl, hstep, rfl⟩
    · simp only [waitPopStep, hp, step, hnone, Option.map_some, Option.some.injEq] at hs
      exact .inr (.inr (.inl ⟨loop, rfl, hnone, hs.symm⟩))
    · simp only [waitPopStep, hp, hsome, Option.some.injEq] at hs
      exact .inr (.inl ⟨value, loop, rfl, hsome, hs.symm⟩)

/-- What a step of the thread that pushes leaves alone. -/
structure PushFrame (s s' : WaitState T) : Prop where
  popped : s'.ring.popped = s.ring.popped
  consumer : s'.ring.consumer = s.ring.consumer
  popper : s'.popper = s.popper
  toPop : s'.toPop = s.toPop
  received : s'.received = s.received

/-- What a step of the thread that pops leaves alone. -/
structure PopFrame (s s' : WaitState T) : Prop where
  pushed : s'.ring.pushed = s.ring.pushed
  producer : s'.ring.producer = s.ring.producer
  pusher : s'.pusher = s.pusher
  toPush : s'.toPush = s.toPush

theorem waitPush_frame (h : Pushing xs s) (hs : waitPushStep c s = some s') : PushFrame s s' := by
  rcases waitPush_cases h hs with ⟨value, rest, -, -, rfl⟩ | ⟨value, loop, -, -, rfl⟩ |
    ⟨value, loop, -, -, rfl⟩ | ⟨value, loop, ring, -, -, hstep, rfl⟩
  · exact ⟨rfl, rfl, rfl, rfl, rfl⟩
  · exact ⟨rfl, rfl, rfl, rfl, rfl⟩
  · exact ⟨rfl, rfl, rfl, rfl, rfl⟩
  · obtain ⟨hcons, hpop⟩ := pushStep_frame hstep
    exact ⟨hpop, hcons, rfl, rfl, rfl⟩

theorem waitPop_frame (h : Popping n s) (hs : waitPopStep c s = some s') : PopFrame s s' := by
  rcases waitPop_cases h hs with ⟨m, -, -, rfl⟩ | ⟨value, loop, -, -, rfl⟩ |
    ⟨loop, -, -, rfl⟩ | ⟨loop, ring, -, -, hstep, rfl⟩
  · exact ⟨rfl, rfl, rfl, rfl⟩
  · exact ⟨rfl, rfl, rfl, rfl⟩
  · exact ⟨rfl, rfl, rfl, rfl⟩
  · obtain ⟨hprod, hpush⟩ := popStep_frame hstep
    exact ⟨hpush, hprod, rfl, rfl⟩

theorem waitInvariant_push (h : WaitInvariant c start xs n s) (hs : waitPushStep c s = some s') :
    WaitInvariant c start xs n s' := by
  have hframe := waitPush_frame h.pushing hs
  have hpopping : Popping n s' := by
    simpa only [Popping, hframe.popper, hframe.consumer, hframe.popped, hframe.toPop, hframe.received]
      using h.popping
  have hpushing := h.pushing
  rcases waitPush_cases h.pushing hs with ⟨value, rest, hp, hl, rfl⟩ | ⟨value, loop, hp, hpc, rfl⟩ |
    ⟨value, loop, hp, hpc, rfl⟩ | ⟨value, loop, ring, hp, hpend, hstep, rfl⟩
  · simp only [Pushing, hp] at hpushing
    obtain ⟨⟨result, hidle⟩, hxs⟩ := hpushing
    have hcall : step c s.ring (.callPush value) = some { s.ring with producer := .loadTail value } := by
      simp only [step, hidle]
    exact ⟨invariant_step h.ring hcall, .inl ⟨.inl rfl, hl ▸ hxs⟩, hpopping⟩
  · simp only [Pushing, hp, hpc, ProducerPc.pending] at hpushing
    have hxs : s.ring.pushed ++ s.toPush = xs := by simpa using hpushing
    exact ⟨h.ring, ⟨⟨some true, hpc⟩, hxs⟩, hpopping⟩
  · simp only [Pushing, hp, hpc] at hpushing
    have hxs : s.ring.pushed ++ value :: s.toPush = xs := by simpa using hpushing
    have hcall : step c s.ring (.callPush value) = some { s.ring with producer := .loadTail value } := by
      simp only [step, hpc]
    exact ⟨invariant_step h.ring hcall, .inl ⟨.inl rfl, hxs⟩, hpopping⟩
  · have hring : step c s.ring .push = some ring := hstep
    refine ⟨invariant_step h.ring hring, ?_, hpopping⟩
    simp only [Pushing, hp] at hpushing ⊢
    have hxs : s.ring.pushed ++ value :: s.toPush = xs := by
      rcases hpushing with ⟨-, hxs⟩ | ⟨hdone, -⟩
      · exact hxs
      · simp [hdone, ProducerPc.pending] at hpend
    rcases push_step h.ring hring hpend with ⟨hp', hq⟩ | ⟨hp', hq⟩ | ⟨hp', hq, -⟩
    · exact .inl ⟨.inl hp', hq ▸ hxs⟩
    · exact .inr ⟨hp', by rw [hq, List.append_assoc, List.singleton_append, hxs]⟩
    · exact .inl ⟨.inr hp', hq ▸ hxs⟩

theorem waitInvariant_pop (h : WaitInvariant c start xs n s) (hs : waitPopStep c s = some s') :
    WaitInvariant c start xs n s' := by
  have hframe := waitPop_frame h.popping hs
  have hpushing : Pushing xs s' := by
    simpa only [Pushing, hframe.pusher, hframe.producer, hframe.pushed, hframe.toPush] using h.pushing
  have hpopping := h.popping
  rcases waitPop_cases h.popping hs with ⟨m, hp, hl, rfl⟩ | ⟨value, loop, hp, hpc, rfl⟩ |
    ⟨loop, hp, hpc, rfl⟩ | ⟨loop, ring, hp, hbusy, hstep, rfl⟩
  · simp only [Popping, hp] at hpopping
    obtain ⟨⟨result, hidle⟩, hrec, hn⟩ := hpopping
    have hcall : step c s.ring .callPop = some { s.ring with consumer := .loadHead } := by
      simp only [step, hidle]
    refine ⟨invariant_step h.ring hcall, hpushing, .inl ⟨.inl rfl, hrec, ?_⟩⟩
    rw [hl] at hn
    exact hn
  · simp only [Popping, hp, hpc, ConsumerPc.isIdle] at hpopping
    have hrec : s.received ++ [value] = s.ring.popped ∧ s.ring.popped.length + s.toPop = n := by
      simpa using hpopping
    exact ⟨h.ring, hpushing, ⟨⟨_, hpc⟩, hrec⟩⟩
  · simp only [Popping, hp, hpc] at hpopping
    have hrec : s.received = s.ring.popped ∧ s.ring.popped.length + s.toPop + 1 = n := by simpa using hpopping
    have hcall : step c s.ring .callPop = some { s.ring with consumer := .loadHead } := by
      simp only [step, hpc]
    exact ⟨invariant_step h.ring hcall, hpushing, .inl ⟨.inl rfl, hrec⟩⟩
  · have hring : step c s.ring .pop = some ring := hstep
    refine ⟨invariant_step h.ring hring, hpushing, ?_⟩
    simp only [Popping, hp] at hpopping ⊢
    obtain ⟨hrec, hn⟩ : s.received = s.ring.popped ∧ s.ring.popped.length + s.toPop + 1 = n := by
      rcases hpopping with ⟨-, hkeep⟩ | ⟨value, hdone, -⟩
      · exact hkeep
      · simp [hdone, ConsumerPc.isIdle] at hbusy
    rcases pop_step h.ring hring hbusy with ⟨hb, hq⟩ | ⟨value, hb, hq⟩ | ⟨hb, hq, -⟩
    · exact .inl ⟨.inl hb, by rw [hq, hrec], by rw [hq, hn]⟩
    · refine .inr ⟨value, hb, by rw [hq, hrec], ?_⟩
      rw [hq, List.length_append, List.length_singleton]
      omega
    · exact .inl ⟨.inr hb, by rw [hq, hrec], by rw [hq, hn]⟩

theorem waitInvariant_step {side : Side} (h : WaitInvariant c start xs n s)
    (hs : (waits c start blank xs n).step s side = some s') : WaitInvariant c start xs n s' := by
  cases side with
  | producer => exact waitInvariant_push h hs
  | consumer => exact waitInvariant_pop h hs

theorem waitInvariant_under (c : Capacity) (start : BitVec 64) (blank : T) (xs : List T) (n : ℕ)
    (sched : ℕ → Side) (k : ℕ) : WaitInvariant c start xs n ((waits c start blank xs n).under sched k) := by
  refine System.under_invariant ?_ (fun _ _ _ h hs => waitInvariant_step h hs) k
  exact ⟨invariant_initial c start blank, ⟨⟨none, rfl⟩, rfl⟩, ⟨⟨none, rfl⟩, rfl, Nat.zero_add n⟩⟩

end Qtx.SPSCRingBuffer
