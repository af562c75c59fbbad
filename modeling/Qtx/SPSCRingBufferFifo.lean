import Qtx.SPSCRingBufferInvariants
import Mathlib.Tactic.IntervalCases

/-!
# The ring is a FIFO queue

Calls are intervals of an execution: from the step that enters `try_push` or
`try_pop` to the instant at which its side is idle again.
-/
namespace Qtx.SPSCRingBuffer
open TransitionSystems

variable {T : Type*} {c : Capacity} {start : BitVec 64}

def ProducerPc.pending : ProducerPc T → Option T
  | .idle _ => none
  | .loadTail value | .loadHead value _ | .copySlot value _ | .storeTail value _ => some value

def ConsumerPc.isIdle : ConsumerPc T → Bool
  | .idle _ => true
  | .loadHead | .loadTail _ | .copySlot _ | .storeHead _ _ => false

/-- The slot of position `k` holds its value, published or about to be published. -/
def Written (s : State T) (k : ℕ) : Prop :=
  k < s.pushed.length ∨ k = s.pushed.length ∧ ∃ value currentTail, s.producer = .storeTail value currentTail

theorem callPush_step {s s' : State T} {value : T} (hs : step c s (.callPush value) = some s') :
    s'.producer = .loadTail value ∧ s'.pushed = s.pushed := by
  simp only [step] at hs
  split at hs
  · cases hs
    exact ⟨rfl, rfl⟩
  · cases hs

theorem callPop_step {s s' : State T} (hs : step c s .callPop = some s') :
    s'.consumer = .loadHead ∧ s'.popped = s.popped := by
  simp only [step] at hs
  split at hs
  · cases hs
    exact ⟨rfl, rfl⟩
  · cases hs

theorem popStep_frame {s s' : State T} (hs : popStep c s = some s') :
    s'.producer = s.producer ∧ s'.pushed = s.pushed := by
  unfold popStep at hs
  cases hpc : s.consumer with
  | idle _ => simp [hpc] at hs
  | loadHead =>
    simp only [hpc] at hs
    split_ifs at hs
    all_goals cases hs; exact ⟨rfl, rfl⟩
  | loadTail currentHead =>
    simp only [hpc] at hs
    split_ifs at hs
    all_goals cases hs; exact ⟨rfl, rfl⟩
  | copySlot currentHead => simp only [hpc] at hs; cases hs; exact ⟨rfl, rfl⟩
  | storeHead value currentHead => simp only [hpc] at hs; cases hs; exact ⟨rfl, rfl⟩

theorem pushStep_frame {s s' : State T} (hs : pushStep c s = some s') :
    s'.consumer = s.consumer ∧ s'.popped = s.popped := by
  unfold pushStep at hs
  cases hpc : s.producer with
  | idle _ => simp [hpc] at hs
  | loadTail value =>
    simp only [hpc] at hs
    split_ifs at hs
    all_goals cases hs; exact ⟨rfl, rfl⟩
  | loadHead value currentTail =>
    simp only [hpc] at hs
    split_ifs at hs
    all_goals cases hs; exact ⟨rfl, rfl⟩
  | copySlot value currentTail => simp only [hpc] at hs; cases hs; exact ⟨rfl, rfl⟩
  | storeTail value currentTail => simp only [hpc] at hs; cases hs; exact ⟨rfl, rfl⟩

/-- What one step of any kind does to a push in progress. -/
theorem push_step {s s' : State T} {l : Label T} {value : T} (h : Invariant c start s)
    (hs : step c s l = some s') (hv : s.producer.pending = some value) :
    s'.producer.pending = some value ∧ s'.pushed = s.pushed ∨
    s'.producer = .idle (some true) ∧ s'.pushed = s.pushed ++ [value] ∨
    s'.producer = .idle (some false) ∧ s'.pushed = s.pushed ∧
      s.pushed.length = s.popped.length + c.value := by
  cases l with
  | callPush _ =>
    simp only [step] at hs
    split at hs
    · rename_i result hpc
      simp [hpc, ProducerPc.pending] at hv
    · cases hs
  | callPop =>
    simp only [step] at hs
    split at hs
    · cases hs
      exact .inl ⟨hv, rfl⟩
    · cases hs
  | pop =>
    obtain ⟨hp, hq⟩ := popStep_frame hs
    exact .inl ⟨hp ▸ hv, hq⟩
  | push =>
    simp only [step, pushStep] at hs
    cases hpc : s.producer with
    | idle _ => simp [hpc] at hs
    | loadTail v =>
      rw [hpc] at hv
      simp only [hpc] at hs
      split_ifs at hs
      all_goals cases hs; exact .inl ⟨hv, rfl⟩
    | loadHead v currentTail =>
      rw [hpc] at hv
      simp only [hpc] at hs
      obtain ⟨seen, -, -, -, hat⟩ := h.producer
      have hat : currentTail = counter start s.pushed.length := by simpa only [hpc, ProducerAt] using hat
      split_ifs at hs with hf
      · cases hs
        rw [hat, h.shared.head, looksFull_counter c start h.shared.length_le h.shared.bounded] at hf
        exact .inr (.inr ⟨rfl, rfl, hf⟩)
      · cases hs
        exact .inl ⟨hv, rfl⟩
    | copySlot v currentTail =>
      rw [hpc] at hv
      simp only [hpc] at hs
      cases hs
      exact .inl ⟨hv, rfl⟩
    | storeTail v currentTail =>
      rw [hpc] at hv
      simp only [hpc] at hs
      cases hs
      cases hv
      exact .inr (.inl ⟨rfl, rfl⟩)

/-- What one step of any kind does to a pop in progress. -/
theorem pop_step {s s' : State T} {l : Label T} (h : Invariant c start s)
    (hs : step c s l = some s') (hv : s.consumer.isIdle = false) :
    s'.consumer.isIdle = false ∧ s'.popped = s.popped ∨
    (∃ value, s'.consumer = .idle (some (some value)) ∧ s'.popped = s.popped ++ [value]) ∨
    s'.consumer = .idle (some none) ∧ s'.popped = s.popped ∧ s.pushed.length = s.popped.length := by
  cases l with
  | callPush _ =>
    simp only [step] at hs
    split at hs
    · cases hs
      exact .inl ⟨hv, rfl⟩
    · cases hs
  | callPop =>
    simp only [step] at hs
    split at hs
    · rename_i result hpc
      simp [hpc, ConsumerPc.isIdle] at hv
    · cases hs
  | push =>
    obtain ⟨hp, hq⟩ := pushStep_frame hs
    exact .inl ⟨hp ▸ hv, hq⟩
  | pop =>
    simp only [step, popStep] at hs
    cases hpc : s.consumer with
    | idle _ => simp [hpc] at hs
    | loadHead =>
      simp only [hpc] at hs
      split_ifs at hs
      all_goals cases hs; exact .inl ⟨rfl, rfl⟩
    | loadTail currentHead =>
      simp only [hpc] at hs
      obtain ⟨seen, -, -, -, hat⟩ := h.consumer
      have hat : currentHead = counter start s.popped.length := by simpa only [hpc, ConsumerAt] using hat
      split_ifs at hs with he
      · cases hs
        rw [hat, h.shared.tail, counter_eq_iff c start h.shared.length_le h.shared.bounded] at he
        exact .inr (.inr ⟨rfl, rfl, he.symm⟩)
      · cases hs
        exact .inl ⟨rfl, rfl⟩
    | copySlot currentHead =>
      simp only [hpc] at hs
      cases hs
      exact .inl ⟨rfl, rfl⟩
    | storeHead value currentHead =>
      simp only [hpc] at hs
      cases hs
      exact .inr (.inl ⟨value, rfl, rfl⟩)

theorem writes_eq_some {s : State T} {l : Label T} {j : ℕ} (h : writes c s l = some j) :
    l = .push ∧ ∃ value currentTail, s.producer = .copySlot value currentTail ∧ slotIndex c currentTail = j := by
  cases l with
  | callPush _ => cases h
  | callPop => cases h
  | pop => cases h
  | push =>
    simp only [writes] at h
    split at h
    · rename_i value currentTail hpc
      exact ⟨rfl, value, currentTail, hpc, Option.some.inj h⟩
    · cases h

theorem written_step {s s' : State T} {l : Label T} {k : ℕ} (h : Invariant c start s)
    (hs : step c s l = some s') (hw : Written s k) : Written s' k := by
  rcases hpend : s.producer.pending with _ | value
  · -- an idle producer has published everything it has written
    have hlt : k < s.pushed.length := by
      rcases hw with hlt | ⟨-, value, currentTail, hpc⟩
      · exact hlt
      · simp [hpc, ProducerPc.pending] at hpend
    have hkeep : s'.pushed = s.pushed := by
      cases l with
      | callPush _ => simp only [step] at hs; split at hs <;> cases hs; rfl
      | callPop => simp only [step] at hs; split at hs <;> cases hs; rfl
      | pop => exact (popStep_frame hs).2
      | push =>
        simp only [step, pushStep] at hs
        cases hpc : s.producer <;> simp [hpc, ProducerPc.pending] at hs hpend
    exact .inl (hkeep ▸ hlt)
  · rcases hw with hlt | ⟨heq, v, currentTail, hpc⟩
    · refine .inl (Nat.lt_of_lt_of_le hlt ?_)
      rcases push_step h hs hpend with ⟨-, hp⟩ | ⟨-, hp⟩ | ⟨-, hp, -⟩
      · rw [hp]
      · rw [hp, List.length_append]
        omega
      · rw [hp]
    · cases l with
      | callPush _ => simp [step, hpc] at hs
      | callPop =>
        simp only [step] at hs
        split at hs
        · cases hs
          exact .inr ⟨heq, v, currentTail, hpc⟩
        · cases hs
      | pop =>
        obtain ⟨hp, hq⟩ := popStep_frame hs
        exact .inr ⟨hq ▸ heq, v, currentTail, hp ▸ hpc⟩
      | push =>
        simp only [step, pushStep, hpc] at hs
        cases hs
        refine .inl ?_
        simp only [List.length_append, List.length_singleton]
        omega

section Runs

variable {blank : T} {n : ℕ} (e : Execution (system c start blank) n)

/-- The `try_push(value)` called at step `a` has returned `result` at instant `b`. -/
structure PushCall (a b : ℕ) (value : T) (result : Bool) : Prop where
  called : e.label a = .callPush value
  order : a < b
  within : b ≤ n
  running : ∀ k, a < k → k < b → (e.state k).producer.pending ≠ none
  returns : (e.state b).producer = .idle (some result)

/-- The `try_pop()` called at step `a` has returned `result` at instant `b`. -/
structure PopCall (a b : ℕ) (result : Option T) : Prop where
  called : e.label a = .callPop
  order : a < b
  within : b ≤ n
  running : ∀ k, a < k → k < b → (e.state k).consumer.isIdle = false
  returns : (e.state b).consumer = .idle (some result)

def Full (c : Capacity) (s : State T) : Prop := s.pushed.length = s.popped.length + c.value

def Empty (s : State T) : Prop := s.pushed.length = s.popped.length

variable {e}

theorem invariant_at (e : Execution (system c start blank) n) {k : ℕ} (hk : k ≤ n) :
    Invariant c start (e.state k) :=
  e.invariant (invariant_initial c start blank) (fun _ _ _ h hs => invariant_step h hs) k hk

theorem not_overwritten {a b j : ℕ} (hab : a < b) (hb : b < n)
    (hj : writes c (e.state a) (e.label a) = some j)
    (hheld : (e.state b).popped.length ≤ (e.state a).pushed.length) :
    writes c (e.state b) (e.label b) ≠ some j := by
  intro hagain
  obtain ⟨hla, v, t, hpa, rfl⟩ := writes_eq_some hj
  obtain ⟨-, w, u, hpb, hslot⟩ := writes_eq_some hagain
  obtain ⟨seenA, -, -, -, hatA⟩ := (invariant_at e (by omega : a ≤ n)).producer
  obtain ⟨seenB, -, hseenB, -, hatB⟩ := (invariant_at e hb.le).producer
  simp only [hpa, ProducerAt] at hatA
  simp only [hpb, ProducerAt] at hatB
  have hfirst : Written (e.state (a + 1)) (e.state a).pushed.length := by
    have hs := e.step a (by omega)
    simp only [hla, system, step, pushStep, hpa, Option.some.injEq] at hs
    rw [← hs]
    exact .inr ⟨rfl, v, t, rfl⟩
  have hlater : Written (e.state b) (e.state a).pushed.length :=
    e.along (P := fun _ s => Written s (e.state a).pushed.length) hb.le hfirst
      (fun k _ hk hw hs => written_step (invariant_at e (by omega)) hs hw) hab le_rfl
  have hlt : (e.state a).pushed.length < (e.state b).pushed.length := by
    rcases hlater with hlt | ⟨-, v', t', hpc⟩
    · exact hlt
    · rw [hpb] at hpc
      cases hpc
  rw [hatA.1, hatB.1] at hslot
  exact slotIndex_ne start hlt (by omega) hslot.symm

theorem pushCall_result {a b : ℕ} {value : T} {result : Bool} (h : PushCall e a b value result) :
    result = true ∧ (e.state b).pushed = (e.state a).pushed ++ [value] ∨
    result = false ∧ (e.state b).pushed = (e.state a).pushed ∧
      ∃ k, a ≤ k ∧ k ≤ b ∧ Full c (e.state k) := by
  obtain ⟨hcall, hab, hbn, hrun, hret⟩ := h
  obtain ⟨m, rfl⟩ : ∃ m, b = m + 1 := ⟨b - 1, by omega⟩
  have hstart : (e.state (a + 1)).producer.pending = some value ∧
      (e.state (a + 1)).pushed = (e.state a).pushed := by
    obtain ⟨hp, hq⟩ := callPush_step (c := c) (hcall ▸ e.step a (by omega))
    exact ⟨by rw [hp, ProducerPc.pending], hq⟩
  rcases Nat.lt_succ_iff_lt_or_eq.mp hab with ham | rfl
  · have hmid : (e.state m).producer.pending = some value ∧ (e.state m).pushed = (e.state a).pushed := by
      refine e.along (P := fun _ s => s.producer.pending = some value ∧ s.pushed = (e.state a).pushed)
        (by omega : m ≤ n) hstart ?_ ham le_rfl
      intro k hak hkm hp hs
      have hnext := hrun (k + 1) (by omega) (by omega)
      rcases push_step (invariant_at e (by omega)) hs hp.1 with h | h | h
      · exact ⟨h.1, h.2.trans hp.2⟩
      · simp [h.1, ProducerPc.pending] at hnext
      · simp [h.1, ProducerPc.pending] at hnext
    rcases push_step (invariant_at e (by omega)) (e.step m (by omega)) hmid.1 with h | h | h
    · simp [hret, ProducerPc.pending] at h
    · rw [hret] at h
      cases h.1
      exact .inl ⟨rfl, by rw [h.2, hmid.2]⟩
    · rw [hret] at h
      cases h.1
      exact .inr ⟨rfl, by rw [h.2.1, hmid.2], m, by omega, by omega, h.2.2⟩
  · simp [hret, ProducerPc.pending] at hstart

theorem popCall_result {a b : ℕ} {result : Option T} (h : PopCall e a b result) :
    (∃ value, result = some value ∧ (e.state b).popped = (e.state a).popped ++ [value]) ∨
    result = none ∧ (e.state b).popped = (e.state a).popped ∧
      ∃ k, a ≤ k ∧ k ≤ b ∧ Empty (e.state k) := by
  obtain ⟨hcall, hab, hbn, hrun, hret⟩ := h
  obtain ⟨m, rfl⟩ : ∃ m, b = m + 1 := ⟨b - 1, by omega⟩
  have hstart : (e.state (a + 1)).consumer.isIdle = false ∧
      (e.state (a + 1)).popped = (e.state a).popped := by
    obtain ⟨hp, hq⟩ := callPop_step (c := c) (hcall ▸ e.step a (by omega))
    exact ⟨by rw [hp, ConsumerPc.isIdle], hq⟩
  rcases Nat.lt_succ_iff_lt_or_eq.mp hab with ham | rfl
  · have hmid : (e.state m).consumer.isIdle = false ∧ (e.state m).popped = (e.state a).popped := by
      refine e.along (P := fun _ s => s.consumer.isIdle = false ∧ s.popped = (e.state a).popped)
        (by omega : m ≤ n) hstart ?_ ham le_rfl
      intro k hak hkm hp hs
      have hnext := hrun (k + 1) (by omega) (by omega)
      rcases pop_step (invariant_at e (by omega)) hs hp.1 with h | ⟨v, h⟩ | h
      · exact ⟨h.1, h.2.trans hp.2⟩
      · simp [h.1, ConsumerPc.isIdle] at hnext
      · simp [h.1, ConsumerPc.isIdle] at hnext
    rcases pop_step (invariant_at e (by omega)) (e.step m (by omega)) hmid.1 with h | ⟨v, h⟩ | h
    · simp [hret, ConsumerPc.isIdle] at h
    · rw [hret] at h
      cases h.1
      exact .inl ⟨v, rfl, by rw [h.2, hmid.2]⟩
    · rw [hret] at h
      cases h.1
      exact .inr ⟨rfl, by rw [h.2.1, hmid.2], m, by omega, by omega, h.2.2⟩
  · simp [hret, ConsumerPc.isIdle] at hstart

/-- For every capacity, common starting index and interleaving: popped values come
out in push order, at most `Capacity` of them are outstanding, an outstanding slot is
not written again, and a call fails only if the ring was full, respectively empty,
while it ran. -/
theorem fifo (e : Execution (system c start blank) n) :
    (∀ k ≤ n, (e.state k).popped <+: (e.state k).pushed ∧
      (e.state k).pushed.length ≤ (e.state k).popped.length + c.value) ∧
    (∀ a b j, a < b → b < n → writes c (e.state a) (e.label a) = some j →
      (e.state b).popped.length ≤ (e.state a).pushed.length →
      writes c (e.state b) (e.label b) ≠ some j) ∧
    (∀ a b value result, PushCall e a b value result →
      result = true ∧ (e.state b).pushed = (e.state a).pushed ++ [value] ∨
      result = false ∧ (e.state b).pushed = (e.state a).pushed ∧
        ∃ k, a ≤ k ∧ k ≤ b ∧ Full c (e.state k)) ∧
    (∀ a b result, PopCall e a b result →
      (∃ value, result = some value ∧ (e.state b).popped = (e.state a).popped ++ [value]) ∨
      result = none ∧ (e.state b).popped = (e.state a).popped ∧
        ∃ k, a ≤ k ∧ k ≤ b ∧ Empty (e.state k)) := by
  refine ⟨?_, ?_, ?_, ?_⟩
  · intro k hk
    have h := (invariant_at e hk).shared
    exact ⟨h.ordered, h.bounded⟩
  · intro a b j hab hb hj hheld
    exact not_overwritten hab hb hj hheld
  · intro a b value result h
    exact pushCall_result h
  · intro a b result h
    exact popCall_result h

end Runs

def twoSlots : Capacity := ⟨2, by decide, by decide⟩

/-- Both counters wrap: two pushes, a push that finds the ring full, three pops of which
the last one finds it empty. -/
def wrapLabels : List (Label Bool) :=
  [.callPush true, .push, .push, .push, .callPush false, .push, .push, .push,
    .callPush true, .push, .push, .callPop, .pop, .pop, .pop, .pop, .callPop, .pop, .pop, .pop,
    .callPop, .pop, .pop]

def wrapRun : Execution (system twoSlots (BitVec.allOnes 64) false) wrapLabels.length :=
  .ofLabels _ wrapLabels .pop (by decide)

theorem wrapRun_fifo : (∃ k, 8 ≤ k ∧ k ≤ 11 ∧ Full twoSlots (wrapRun.state k)) ∧
    (∃ k, 20 ≤ k ∧ k ≤ 23 ∧ Empty (wrapRun.state k)) ∧
    (wrapRun.state 23).popped <+: (wrapRun.state 23).pushed := by
  have h := fifo wrapRun
  have hpush : PushCall wrapRun 8 11 true false := by
    refine ⟨rfl, by decide, by decide, ?_, by rfl⟩
    intro k h1 h2
    interval_cases k <;> decide
  have hpop : PopCall wrapRun 20 23 none := by
    refine ⟨rfl, by decide, by decide, ?_, by rfl⟩
    intro k h1 h2
    interval_cases k <;> decide
  refine ⟨?_, ?_, (h.1 23 (by decide)).1⟩
  · rcases h.2.2.1 8 11 true false hpush with hfalse | hfull
    · cases hfalse.1
    · exact hfull.2.2
  · rcases h.2.2.2 20 23 none hpop with ⟨_, hsome, -⟩ | hempty
    · cases hsome
    · exact hempty.2.2

end Qtx.SPSCRingBuffer
