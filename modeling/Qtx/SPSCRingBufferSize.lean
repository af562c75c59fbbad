import Qtx.SPSCRingBufferFifo

/-!
# The size that an observer reads

A third thread calls `size()`, which loads `tail_` and then `head_`. The ring goes on between
the loads, so the answer belongs to no instant, and the head that is loaded may lie beyond the
tail that was.
-/
namespace Qtx.SPSCRingBuffer
open TransitionSystems

/-- Where the observer stands; `idle` keeps what its last `size()` returned. -/
inductive ObserverPc
  | idle (result : Option ℕ)
  | loadTail
  | loadHead (t : BitVec 64)

structure ObservedState (T : Type*) where
  ring : State T
  observer : ObserverPc

inductive ObservedLabel (T : Type*)
  | ring (l : Label T)
  | callSize
  | size

variable {T : Type*} (c : Capacity)

def sizeStep (s : ObservedState T) : Option (ObservedState T) :=
  match s.observer with
  | .idle _ => none
  | .loadTail => some { s with observer := .loadHead s.ring.tail }
  | .loadHead t => some { s with observer := .idle (some (t - s.ring.head).toNat) }

def observedStep (s : ObservedState T) : ObservedLabel T → Option (ObservedState T)
  | .ring l => (step c s.ring l).map (fun ring => { s with ring := ring })
  | .callSize => match s.observer with
    | .idle _ => some { s with observer := .loadTail }
    | _ => none
  | .size => sizeStep s

/-- The ring together with an observer. -/
def observed (start : BitVec 64) (blank : T) : System (ObservedState T) (ObservedLabel T) where
  init := ⟨(system c start blank).init, .idle none⟩
  step := observedStep c

/-- `full()` on the answer of `size()`. -/
def full (size : ℕ) : Bool := size ≥ c.value

variable {c} {start : BitVec 64}

section Steps

variable {s s' : ObservedState T}

/-- The observer only reads: the ring takes a step of its own or stays. -/
theorem observedStep_ring {l : ObservedLabel T} (hs : observedStep c s l = some s') :
    (∃ l', step c s.ring l' = some s'.ring ∧ s'.observer = s.observer) ∨ s'.ring = s.ring := by
  cases l with
  | ring l =>
    obtain ⟨ring, hstep, rfl⟩ := Option.map_eq_some_iff.mp hs
    exact .inl ⟨l, hstep, rfl⟩
  | callSize =>
    simp only [observedStep] at hs
    split at hs
    · cases hs
      exact .inr rfl
    · cases hs
  | size =>
    simp only [observedStep, sizeStep] at hs
    split at hs
    · cases hs
    · cases hs
      exact .inr rfl
    · cases hs
      exact .inr rfl

/-- Until the second load the observer keeps the tail that it loaded. -/
theorem observedStep_loadHead {l : ObservedLabel T} {t : BitVec 64} (hs : observedStep c s l = some s')
    (ht : s.observer = .loadHead t) (hl : l ≠ .size) : s'.observer = .loadHead t := by
  cases l with
  | ring l =>
    obtain ⟨ring, -, rfl⟩ := Option.map_eq_some_iff.mp hs
    exact ht
  | callSize => simp [observedStep, ht] at hs
  | size => exact absurd rfl hl

/-- Values that were popped stay popped. -/
theorem popped_step {s s' : State T} {l : Label T} (h : Invariant c start s) (hs : step c s l = some s') :
    s.popped.length ≤ s'.popped.length := by
  cases l with
  | callPush value =>
    simp only [step] at hs
    split at hs
    · cases hs
      exact le_rfl
    · cases hs
  | callPop => rw [(callPop_step hs).2]
  | push => rw [(pushStep_frame hs).2]
  | pop =>
    have hbusy : s.consumer.isIdle = false := by
      cases hpc : s.consumer with
      | idle _ => simp [step, popStep, hpc] at hs
      | _ => rfl
    rcases pop_step h hs hbusy with ⟨-, hpop⟩ | ⟨value, -, hpop⟩ | ⟨-, hpop, -⟩
    · rw [hpop]
    · rw [hpop, List.length_append]
      exact Nat.le_add_right _ _
    · rw [hpop]

end Steps

/-- The distance of two counters in the wrong order wraps. -/
theorem counter_sub_add (start : BitVec 64) (k d : ℕ) :
    (counter start k - counter start (k + d)).toNat = (2 ^ 64 - d % 2 ^ 64) % 2 ^ 64 := by
  have h : counter start (k + d) = counter start k + BitVec.ofNat 64 d := by
    rw [counter, counter, BitVec.add_assoc, ← BitVec.ofNat_add]
  have hlt := (counter start k).isLt
  rw [h, BitVec.toNat_sub, BitVec.toNat_add, BitVec.toNat_ofNat]
  omega

section Runs

variable {blank : T} {n : ℕ} (e : Execution (observed c start blank) n)

/-- A `size()` whose loads are the steps `i` and `j` has returned `result`. -/
structure SizeCall (i j result : ℕ) : Prop where
  ready : (e.state i).observer = .loadTail
  tailLoad : e.label i = .size
  order : i < j
  within : j < n
  running : ∀ k, i < k → k < j → e.label k ≠ .size
  headLoad : e.label j = .size
  returns : (e.state (j + 1)).observer = .idle (some result)

/-- How far the head at step `j` lies beyond the tail at step `i`. -/
def overtaken (i j : ℕ) : ℕ := (e.state j).ring.popped.length - (e.state i).ring.pushed.length

variable {e}

theorem ring_invariant_at (e : Execution (observed c start blank) n) {k : ℕ} (hk : k ≤ n) :
    Invariant c start (e.state k).ring := by
  apply e.invariant (P := fun s => Invariant c start s.ring) (invariant_initial c start blank) _ k hk
  intro s l s' h hs
  rcases observedStep_ring hs with ⟨l', hstep, -⟩ | hsame
  · exact invariant_step h hstep
  · exact hsame ▸ h

theorem popped_mono (e : Execution (observed c start blank) n) {i j : ℕ} (hij : i ≤ j) (hj : j ≤ n) :
    (e.state i).ring.popped.length ≤ (e.state j).ring.popped.length := by
  refine e.along (P := fun _ s => (e.state i).ring.popped.length ≤ s.ring.popped.length) hj le_rfl ?_ hij le_rfl
  intro k _ hkj hle hs
  rcases observedStep_ring hs with ⟨l', hstep, -⟩ | hsame
  · exact hle.trans (popped_step (ring_invariant_at e (hkj.le.trans hj)) hstep)
  · exact hsame ▸ hle

/-- The answer is the difference of the two loads. -/
theorem SizeCall.result_eq {i j result : ℕ} (h : SizeCall e i j result) :
    result = ((e.state i).ring.tail - (e.state j).ring.head).toNat := by
  have hfirst : (e.state (i + 1)).observer = .loadHead (e.state i).ring.tail := by
    have hs := e.step i (h.order.trans h.within)
    simp only [h.tailLoad, observed, observedStep, sizeStep, h.ready, Option.some.injEq] at hs
    rw [← hs]
  have hwait : (e.state j).observer = .loadHead (e.state i).ring.tail :=
    e.along (P := fun _ s => s.observer = .loadHead (e.state i).ring.tail) h.within.le hfirst
      (fun k hik hkj hk hs => observedStep_loadHead hs hk (h.running k hik hkj)) h.order le_rfl
  have hs := e.step j h.within
  simp only [h.headLoad, observed, observedStep, sizeStep, hwait, Option.some.injEq] at hs
  have hreturns := h.returns
  rw [← hs] at hreturns
  cases hreturns
  rfl

/-- For every capacity, starting index, interleaving and call of `size()`: the answer is at most the
capacity if and only if the head does not overtake the tail loaded before it (or does so by whole laps
of the counters, less at most the capacity). -/
theorem size_le_iff {i j result : ℕ} (h : SizeCall e i j result) : result ≤ c.value ↔
    overtaken e i j % 2 ^ 64 = 0 ∨ 2 ^ 64 ≤ overtaken e i j % 2 ^ 64 + c.value := by
  have hi := (ring_invariant_at e (h.order.trans h.within).le).shared
  have hj := (ring_invariant_at e h.within.le).shared
  have hmono := popped_mono e h.order.le h.within.le
  have hbounded := hi.bounded
  have hfits := c.fits
  rw [h.result_eq, hi.tail, hj.head, overtaken]
  rcases Nat.le_total (e.state j).ring.popped.length (e.state i).ring.pushed.length with hle | hlt
  · rw [counter_sub start hle (by omega), Nat.sub_eq_zero_of_le hle]
    exact iff_of_true (by omega) (.inl rfl)
  · obtain ⟨d, hd⟩ := Nat.exists_eq_add_of_le hlt
    rw [hd, counter_sub_add, Nat.add_sub_cancel_left]
    omega

end Runs

/-- The observer loads the tail of an empty ring, an element goes through the ring, and the observer loads the
head. -/
def overtakenLabels : List (ObservedLabel Bool) :=
  [.callSize, .size, .ring (.callPush true), .ring .push, .ring .push, .ring .push,
    .ring .callPop, .ring .pop, .ring .pop, .ring .pop, .ring .pop, .size]

def overtakenRun : Execution (observed twoSlots 0#64 false) overtakenLabels.length :=
  .ofLabels _ overtakenLabels .callSize (by decide)

/-- The head is loaded before the element is popped. -/
def inTimeLabels : List (ObservedLabel Bool) :=
  [.ring (.callPush true), .ring .push, .ring .push, .ring .push, .callSize, .size, .ring .callPop,
    .ring .pop, .size]

def inTimeRun : Execution (observed twoSlots 0#64 false) inTimeLabels.length :=
  .ofLabels _ inTimeLabels .callSize (by decide)

theorem inTimeRun_size : SizeCall inTimeRun 5 8 1 ∧ 1 ≤ twoSlots.value := by
  have hcall : SizeCall inTimeRun 5 8 1 := by
    refine ⟨rfl, rfl, by decide, by decide, ?_, rfl, rfl⟩
    intro k h1 h2
    interval_cases k <;> exact nofun
  exact ⟨hcall, (size_le_iff hcall).mpr (.inl rfl)⟩

/-- On a ring that is empty, `size()` returns the largest counter and `full()` is true. -/
theorem overtakenRun_size : SizeCall overtakenRun 1 11 (2 ^ 64 - 1) ∧ Empty (overtakenRun.state 1).ring ∧
    Empty (overtakenRun.state 11).ring ∧ ¬ 2 ^ 64 - 1 ≤ twoSlots.value ∧ full twoSlots (2 ^ 64 - 1) = true := by
  refine ⟨⟨rfl, rfl, by decide, by decide, ?_, rfl, rfl⟩, rfl, rfl, by decide, by decide⟩
  intro k h1 h2
  interval_cases k <;> exact nofun

end Qtx.SPSCRingBuffer
