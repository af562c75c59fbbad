import Qtx.SPSCRingBufferWaits

/-!
# Turns of the producer and the consumer

A turn of one thread brings its own call nearer to its end, or is a try that fails, and
leaves the other thread's call where it is.
-/
namespace Qtx.SPSCRingBuffer
open TransitionSystems

variable {T : Type*}

/-- Steps of the thread that pushes until it publishes a value, if the ring has room. -/
def ProducerPc.distance : ProducerPc T → ℕ
  | .storeTail _ _ => 1
  | .copySlot _ _ => 2
  | .loadHead _ _ => 3
  | .loadTail _ => 4
  | .idle _ => 5

/-- Steps of the thread that pops until it takes a value, if the ring holds one. -/
def ConsumerPc.distance : ConsumerPc T → ℕ
  | .storeHead _ _ => 1
  | .copySlot _ => 2
  | .loadTail _ => 3
  | .loadHead => 4
  | .idle _ => 5

def WaitState.pushDistance (s : WaitState T) : ℕ :=
  match s.pusher with
  | .outside => 6
  | .waiting _ _ => s.ring.producer.distance

def WaitState.popDistance (s : WaitState T) : ℕ :=
  match s.popper with
  | .outside => 6
  | .waiting _ => s.ring.consumer.distance

/-- `wait_push` is about to return. -/
def WaitState.pushReturns (s : WaitState T) : Bool :=
  match s.pusher, s.ring.producer with
  | .waiting _ _, .idle (some true) => true
  | _, _ => false

/-- `wait_pop` is about to return. -/
def WaitState.popReturns (s : WaitState T) : Bool :=
  match s.popper, s.ring.consumer with
  | .waiting _, .idle (some (some _)) => true
  | _, _ => false

def PushReady (c : Capacity) (xs : List T) (s : WaitState T) : Prop :=
  s.pushReturns = true ∨ s.ring.pushed.length < xs.length ∧ s.ring.pushed.length < s.ring.popped.length + c.value

def PopReady (n : ℕ) (s : WaitState T) : Prop :=
  s.popReturns = true ∨ s.ring.popped.length < n ∧ s.ring.popped.length < s.ring.pushed.length

/-- Publications and returns that are still to come. -/
def pushesLeft (xs : List T) (s : WaitState T) : ℕ :=
  2 * (xs.length - s.ring.pushed.length) + s.pushReturns.toNat

def popsLeft (n : ℕ) (s : WaitState T) : ℕ := 2 * (n - s.ring.popped.length) + s.popReturns.toNat

variable {c : Capacity} {start : BitVec 64} {blank : T} {xs : List T} {n : ℕ}

theorem ProducerPc.distance_le (pc : ProducerPc T) : pc.distance ≤ 5 := by
  cases pc <;> simp [ProducerPc.distance]

theorem ConsumerPc.distance_le (pc : ConsumerPc T) : pc.distance ≤ 5 := by
  cases pc <;> simp [ConsumerPc.distance]

theorem pushDistance_le (s : WaitState T) : s.pushDistance ≤ 6 := by
  rw [WaitState.pushDistance]
  cases s.pusher with
  | outside => exact le_rfl
  | waiting _ _ => exact s.ring.producer.distance_le.trans (Nat.le_succ 5)

theorem popDistance_le (s : WaitState T) : s.popDistance ≤ 6 := by
  rw [WaitState.popDistance]
  cases s.popper with
  | outside => exact le_rfl
  | waiting _ => exact s.ring.consumer.distance_le.trans (Nat.le_succ 5)

theorem pushStep_distance {s s' : State T} {value : T} (hs : pushStep c s = some s')
    (h : s'.producer.pending = some value) : s'.producer.distance < s.producer.distance := by
  unfold pushStep at hs
  cases hpc : s.producer with
  | idle _ => simp [hpc] at hs
  | loadTail v =>
    simp only [hpc] at hs
    split_ifs at hs
    · cases hs
      exact Nat.lt_succ_self 3
    · cases hs
      exact Nat.lt_of_lt_of_le (Nat.lt_succ_self 2) (Nat.le_succ 3)
  | loadHead v currentTail =>
    simp only [hpc] at hs
    split_ifs at hs
    · cases hs
      simp [ProducerPc.pending] at h
    · cases hs
      exact Nat.lt_succ_self 2
  | copySlot v currentTail =>
    simp only [hpc] at hs
    cases hs
    exact Nat.lt_succ_self 1
  | storeTail v currentTail =>
    simp only [hpc] at hs
    cases hs
    simp [ProducerPc.pending] at h

theorem popStep_distance {s s' : State T} (hs : popStep c s = some s') (h : s'.consumer.isIdle = false) :
    s'.consumer.distance < s.consumer.distance := by
  unfold popStep at hs
  cases hpc : s.consumer with
  | idle _ => simp [hpc] at hs
  | loadHead =>
    simp only [hpc] at hs
    split_ifs at hs
    · cases hs
      exact Nat.lt_succ_self 3
    · cases hs
      exact Nat.lt_of_lt_of_le (Nat.lt_succ_self 2) (Nat.le_succ 3)
  | loadTail currentHead =>
    simp only [hpc] at hs
    split_ifs at hs
    · cases hs
      simp [ConsumerPc.isIdle] at h
    · cases hs
      exact Nat.lt_succ_self 2
  | copySlot currentHead =>
    simp only [hpc] at hs
    cases hs
    exact Nat.lt_succ_self 1
  | storeHead v currentHead =>
    simp only [hpc] at hs
    cases hs
    simp [ConsumerPc.isIdle] at h

/-- A turn of the thread that pushes: either it gets something done, which it can only when it is
ready, or nothing that the other thread sees has changed. -/
structure PushTurn (c : Capacity) (xs : List T) (s s' : WaitState T) : Prop where
  frame : PushFrame s s'
  effect : PushReady c xs s ∧ pushesLeft xs s' < pushesLeft xs s ∨
    s'.ring.pushed = s.ring.pushed ∧ s'.pushReturns = s.pushReturns ∧
      (PushReady c xs s → s'.pushDistance < s.pushDistance)

structure PopTurn (n : ℕ) (s s' : WaitState T) : Prop where
  frame : PopFrame s s'
  effect : PopReady n s ∧ popsLeft n s' < popsLeft n s ∨
    s'.ring.popped = s.ring.popped ∧ s'.popReturns = s.popReturns ∧
      (PopReady n s → s'.popDistance < s.popDistance)

theorem exists_pushStep {s : State T} {value : T} (h : s.producer.pending = some value) :
    ∃ s', pushStep c s = some s' := by
  unfold pushStep
  cases hpc : s.producer with
  | idle _ => simp [hpc, ProducerPc.pending] at h
  | _ =>
    dsimp only
    try split_ifs
    all_goals exact ⟨_, rfl⟩

theorem exists_popStep {s : State T} (h : s.consumer.isIdle = false) : ∃ s', popStep c s = some s' := by
  unfold popStep
  cases hpc : s.consumer with
  | idle _ => simp [hpc, ConsumerPc.isIdle] at h
  | _ =>
    dsimp only
    try split_ifs
    all_goals exact ⟨_, rfl⟩

variable {s s' : WaitState T}

/-- The thread that pushes has no turn only when it has pushed everything. -/
theorem not_pushReady_of_none (h : Pushing xs s) (hs : waitPushStep c s = none) : ¬ PushReady c xs s := by
  cases hp : s.pusher with
  | outside =>
    simp only [Pushing, hp] at h
    obtain ⟨⟨result, hidle⟩, hxs⟩ := h
    cases hl : s.toPush with
    | nil =>
      rw [hl, List.append_nil] at hxs
      rintro (hret | ⟨hlt, -⟩)
      · simp [WaitState.pushReturns, hp] at hret
      · rw [hxs] at hlt
        exact Nat.lt_irrefl _ hlt
    | cons value rest => simp [waitPushStep, hp, hl, step, hidle] at hs
  | waiting value loop =>
    simp only [Pushing, hp] at h
    rcases h with ⟨hpend | hfalse, -⟩ | ⟨htrue, -⟩
    · obtain ⟨ring, hstep⟩ := exists_pushStep (c := c) hpend
      cases hpc : s.ring.producer with
      | idle _ => simp [hpc, ProducerPc.pending] at hpend
      | _ => simp [waitPushStep, hp, hpc, hstep] at hs
    · simp [waitPushStep, hp, step, hfalse] at hs
    · simp [waitPushStep, hp, htrue] at hs

theorem not_popReady_of_none (h : Popping n s) (hs : waitPopStep c s = none) : ¬ PopReady n s := by
  cases hp : s.popper with
  | outside =>
    simp only [Popping, hp] at h
    obtain ⟨⟨result, hidle⟩, -, hn⟩ := h
    cases hl : s.toPop with
    | zero =>
      rw [hl, Nat.add_zero] at hn
      rintro (hret | ⟨hlt, -⟩)
      · simp [WaitState.popReturns, hp] at hret
      · rw [hn] at hlt
        exact Nat.lt_irrefl _ hlt
    | succ m => simp [waitPopStep, hp, hl, step, hidle] at hs
  | waiting loop =>
    simp only [Popping, hp] at h
    rcases h with ⟨hbusy | hnone, -⟩ | ⟨value, hsome, -⟩
    · obtain ⟨ring, hstep⟩ := exists_popStep (c := c) hbusy
      cases hpc : s.ring.consumer with
      | idle _ => simp [hpc, ConsumerPc.isIdle] at hbusy
      | _ => simp [waitPopStep, hp, hpc, hstep] at hs
    · simp [waitPopStep, hp, step, hnone] at hs
    · simp [waitPopStep, hp, hsome] at hs

theorem pushTurn (blank : T) (h : WaitInvariant c start xs n s) :
    PushTurn c xs s ((waits c start blank xs n).turn s .producer) := by
  cases hs : waitPushStep c s with
  | none =>
    have hturn : (waits c start blank xs n).turn s .producer = s := by
      simp only [System.turn, waits, hs, Option.getD_none]
    have hnot := not_pushReady_of_none h.pushing hs
    rw [hturn]
    exact ⟨⟨rfl, rfl, rfl, rfl, rfl⟩, .inr ⟨rfl, rfl, fun hready => absurd hready hnot⟩⟩
  | some s' =>
    have hturn : (waits c start blank xs n).turn s .producer = s' := System.turn_of_some hs
    rw [hturn]
    refine ⟨waitPush_frame h.pushing hs, ?_⟩
    have hpushing := h.pushing
    rcases waitPush_cases h.pushing hs with ⟨value, rest, hp, hl, rfl⟩ | ⟨value, loop, hp, hpc, rfl⟩ |
      ⟨value, loop, hp, hpc, rfl⟩ | ⟨value, loop, ring, hp, hpend, hstep, rfl⟩
    · refine .inr ⟨rfl, by simp [WaitState.pushReturns, hp], fun _ => ?_⟩
      simp [WaitState.pushDistance, hp, ProducerPc.distance]
    · refine .inl ⟨.inl (by simp [WaitState.pushReturns, hp, hpc]), ?_⟩
      simp [pushesLeft, WaitState.pushReturns, hp, hpc]
    · refine .inr ⟨rfl, by simp [WaitState.pushReturns, hp, hpc], fun _ => ?_⟩
      simp [WaitState.pushDistance, hp, hpc, ProducerPc.distance]
    · have hring : step c s.ring .push = some ring := hstep
      have hstay : s.pushReturns = false := by
        simp only [WaitState.pushReturns, hp]
        split
        · rename_i hv hd hpc
          simp [hpc, ProducerPc.pending] at hpend
        · rfl
      have hxs : s.ring.pushed ++ value :: s.toPush = xs := by
        simp only [Pushing, hp] at hpushing
        rcases hpushing with ⟨-, hxs⟩ | ⟨hdone, -⟩
        · exact hxs
        · simp [hdone, ProducerPc.pending] at hpend
      rcases push_step h.ring hring hpend with ⟨hp', hq⟩ | ⟨hp', hq⟩ | ⟨hp', hq, hfull⟩
      · refine .inr ⟨hq, ?_, fun _ => ?_⟩
        · rw [hstay]
          simp only [WaitState.pushReturns, hp]
          split
          · rename_i hv hd hpc
            simp [hpc, ProducerPc.pending] at hp'
          · rfl
        · simp only [WaitState.pushDistance, hp]
          exact pushStep_distance hstep hp'
      · have hbound := (invariant_step h.ring hring).shared.bounded
        have hpop := (pushStep_frame hstep).2
        have hlen : ring.pushed.length = s.ring.pushed.length + 1 := by
          rw [hq, List.length_append, List.length_singleton]
        have hroom : s.ring.pushed.length < xs.length := by
          rw [← hxs, List.length_append, List.length_cons]
          omega
        refine .inl ⟨.inr ⟨hroom, ?_⟩, ?_⟩
        · rw [hlen, hpop] at hbound
          exact hbound
        · have hret := Bool.toNat_le (WaitState.pushReturns { s with ring := ring })
          simp only [pushesLeft, hlen, hstay, Bool.toNat_false]
          omega
      · refine .inr ⟨hq, ?_, fun hready => ?_⟩
        · rw [hstay]
          simp [WaitState.pushReturns, hp, hp']
        · rcases hready with hret | ⟨-, hlt⟩
          · rw [hstay] at hret
            cases hret
          · omega

theorem popTurn (blank : T) (h : WaitInvariant c start xs n s) :
    PopTurn n s ((waits c start blank xs n).turn s .consumer) := by
  cases hs : waitPopStep c s with
  | none =>
    have hturn : (waits c start blank xs n).turn s .consumer = s := by
      simp only [System.turn, waits, hs, Option.getD_none]
    have hnot := not_popReady_of_none h.popping hs
    rw [hturn]
    exact ⟨⟨rfl, rfl, rfl, rfl⟩, .inr ⟨rfl, rfl, fun hready => absurd hready hnot⟩⟩
  | some s' =>
    have hturn : (waits c start blank xs n).turn s .consumer = s' := System.turn_of_some hs
    rw [hturn]
    refine ⟨waitPop_frame h.popping hs, ?_⟩
    have hpopping := h.popping
    rcases waitPop_cases h.popping hs with ⟨m, hp, hl, rfl⟩ | ⟨value, loop, hp, hpc, rfl⟩ |
      ⟨loop, hp, hpc, rfl⟩ | ⟨loop, ring, hp, hbusy, hstep, rfl⟩
    · refine .inr ⟨rfl, by simp [WaitState.popReturns, hp], fun _ => ?_⟩
      simp [WaitState.popDistance, hp, ConsumerPc.distance]
    · refine .inl ⟨.inl (by simp [WaitState.popReturns, hp, hpc]), ?_⟩
      simp [popsLeft, WaitState.popReturns, hp, hpc]
    · refine .inr ⟨rfl, by simp [WaitState.popReturns, hp, hpc], fun _ => ?_⟩
      simp [WaitState.popDistance, hp, hpc, ConsumerPc.distance]
    · have hring : step c s.ring .pop = some ring := hstep
      have hstay : s.popReturns = false := by
        simp only [WaitState.popReturns, hp]
        split
        · rename_i hv hd hpc
          simp [hpc, ConsumerPc.isIdle] at hbusy
        · rfl
      have hn : s.ring.popped.length + s.toPop + 1 = n := by
        simp only [Popping, hp] at hpopping
        rcases hpopping with ⟨-, -, hn⟩ | ⟨value, hdone, -⟩
        · exact hn
        · simp [hdone, ConsumerPc.isIdle] at hbusy
      rcases pop_step h.ring hring hbusy with ⟨hb, hq⟩ | ⟨value, hb, hq⟩ | ⟨hb, hq, hempty⟩
      · refine .inr ⟨hq, ?_, fun _ => ?_⟩
        · rw [hstay]
          simp only [WaitState.popReturns, hp]
          split
          · rename_i hv hd hpc
            simp [hpc, ConsumerPc.isIdle] at hb
          · rfl
        · simp only [WaitState.popDistance, hp]
          exact popStep_distance hstep hb
      · have hle := (invariant_step h.ring hring).shared.length_le
        have hpush := (popStep_frame hstep).2
        have hlen : ring.popped.length = s.ring.popped.length + 1 := by
          rw [hq, List.length_append, List.length_singleton]
        refine .inl ⟨.inr ⟨by omega, ?_⟩, ?_⟩
        · rw [hlen, hpush] at hle
          exact hle
        · have hret := Bool.toNat_le (WaitState.popReturns { s with ring := ring })
          simp only [popsLeft, hlen, hstay, Bool.toNat_false]
          omega
      · refine .inr ⟨hq, ?_, fun hready => ?_⟩
        · rw [hstay]
          simp [WaitState.popReturns, hp, hb]
        · rcases hready with hret | ⟨-, hlt⟩
          · rw [hstay] at hret
            cases hret
          · omega

end Qtx.SPSCRingBuffer
