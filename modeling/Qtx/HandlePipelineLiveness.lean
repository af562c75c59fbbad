import Qtx.HandlePipelineAdvances

/-!
# The pipeline delivers every message

One of the threads can always get on, and the work that is left shrinks with each of its
steps, so a fair schedule delivers all messages.
-/
namespace Qtx.HandlePipeline
open SpanMemory TransitionSystems FractalArena

variable {g : Geometry} {w : Scenario} {c : SPSCRingBuffer.Capacity} {head : BitVec 64} {start : Party → ℕ}
  {s s' : State g} {id : GenID}

/-- The consumer helps while it has something to do, else the producer does. -/
def helpful (s : State g) : Party := if ConsumerReady s then .consumer else .producer

/-- The weight of a message outgrows every distance. -/
def remaining (start : Party → ℕ) (w : Scenario) (s : State g) : ℕ :=
  (23 + 3 * g.slotSize) * ((w.kMessages - s.sent) + (w.kMessages - s.received)) +
    if ConsumerReady s then consumerDistance s else producerDistance start s

/-- The pipeline from a state on, when no compare-exchange fails spuriously any more. -/
def calmly (c : SPSCRingBuffer.Capacity) (start : Party → ℕ) (w : Scenario) (head : BitVec 64) (s : State g) :
    System (State g) Party where
  init := s
  step s party := (pipeline c start w g head).step s (party, false)

theorem ProducerTurn.ready_iff (h : ProducerTurn w s s') (hpushed : s'.ring.pushed = s.ring.pushed) :
    ConsumerReady s' ↔ ConsumerReady s := by
  rw [ConsumerReady, ConsumerReady, h.consumer, h.popped, hpushed]

theorem ProducerTurn.consumerDistance_eq (h : ProducerTurn w s s') : consumerDistance s' = consumerDistance s := by
  simp only [consumerDistance, h.consumer, h.pc, h.ring]

/-- A message is done with: the weight drops by more than any distance can rise. -/
theorem remaining_lt_of_done
    (h : (w.kMessages - s'.sent) + (w.kMessages - s'.received) <
      (w.kMessages - s.sent) + (w.kMessages - s.received)) :
    remaining start w s' < remaining start w s := by
  have hproducer := producerDistance_le start s'
  have hconsumer := consumerDistance_le s'
  have hweight := Nat.mul_le_mul_left (23 + 3 * g.slotSize) (Nat.succ_le_of_lt h)
  rw [Nat.mul_succ] at hweight
  unfold remaining
  split_ifs <;> omega

theorem Invariant.sent_lt (h : Invariant w c head s) (hu : Underway w s) (hnot : ¬ ConsumerReady s)
    (away : ¬ s.Done w) :
    s.sent < w.kMessages := by
  refine hu.sending.resolve_right (fun hend => away ?_)
  have hp : s.consumer = .popping := by
    by_contra hne
    exact hnot (.inl hne)
  have hle := Nat.le_of_not_lt (fun hlt => hnot (.inr hlt))
  have hsent := h.sent
  have hreceived := h.received
  rw [hp, if_pos rfl, Nat.add_zero] at hreceived
  obtain ⟨hcount, hproducer, hidle⟩ := hend
  rcases hu.receiving with hlt | ⟨hall, -, hring⟩
  · omega
  · exact ⟨⟨hproducer, hidle, hcount⟩, hp, SPSCRingBuffer.ConsumerPc.isIdle_iff.mp hring, hall⟩

theorem helpful_turn (ha : Accepts g w.requestedSize w.requestedAlign) {s₀ : State g} (h : Invariant w c head s)
    (hu : Underway w s) (away : ¬ s.Done w) :
    remaining start w ((calmly c start w head s₀).turn s (helpful s)) < remaining start w s := by
  unfold helpful
  split_ifs with hready
  · have hadvances : ConsumerAdvances c start w s := h.consumer_advances hu hready
    obtain ⟨s', hs, hless⟩ := hadvances
    have hturn : (calmly c start w head s₀).turn s .consumer = s' := System.turn_of_some hs
    have hframe := consumer_turn h hu hs
    have hbusy := hframe.busy
    rw [hturn]
    rcases hless with hreceived | ⟨hreceived, hready', hnear⟩
    · refine remaining_lt_of_done ?_
      rw [hframe.sent, hreceived]
      omega
    · rw [remaining, remaining, if_pos hready, if_pos hready', hframe.sent, hreceived]
      omega
  · have hbusy := h.sent_lt hu hready away
    have hadvances : ProducerAdvances c start w s := h.producer_advances hready ha hbusy
    obtain ⟨s', hs, hless⟩ := hadvances
    have hturn : (calmly c start w head s₀).turn s .producer = s' := System.turn_of_some hs
    have hframe := producer_turn h hu hs
    rw [hturn]
    rcases hless with hsent | ⟨hsent, hnear⟩
    · refine remaining_lt_of_done ?_
      rw [hframe.received, hsent]
      omega
    · have hpushed : s'.ring.pushed = s.ring.pushed := by
        rcases hframe.effect with ⟨-, hpushed⟩ | ⟨hsent', -⟩
        · exact hpushed
        · omega
      have hready' : ¬ ConsumerReady s' := fun h' => hready ((hframe.ready_iff hpushed).mp h')
      rw [remaining, remaining, if_neg hready, if_neg hready', hframe.received, hsent]
      omega

theorem any_turn {s₀ : State g} (ha : Accepts g w.requestedSize w.requestedAlign) (party : Party)
    (h : Invariant w c head s) (hu : Underway w s) (away : ¬ s.Done w) :
    remaining start w ((calmly c start w head s₀).turn s party) < remaining start w s ∨
      remaining start w ((calmly c start w head s₀).turn s party) = remaining start w s ∧
        helpful ((calmly c start w head s₀).turn s party) = helpful s := by
  by_cases hhelp : party = helpful s
  · rw [hhelp]
    exact .inl (helpful_turn ha h hu away)
  cases hs : (calmly c start w head s₀).step s party with
  | none =>
    have hturn : (calmly c start w head s₀).turn s party = s := by rw [System.turn, hs, Option.getD_none]
    exact .inr ⟨by rw [hturn], by rw [hturn]⟩
  | some s' =>
    rw [System.turn_of_some hs]
    cases party with
    | producer =>
      have hready : ConsumerReady s := by
        by_contra hnot
        exact hhelp (by rw [helpful, if_neg hnot])
      have hframe := producer_turn h hu hs
      have hbusy := hframe.busy
      rcases hframe.effect with ⟨hsent, hpushed⟩ | ⟨hsent, -⟩
      · have hready' := (hframe.ready_iff hpushed).mpr hready
        refine .inr ⟨?_, by rw [helpful, helpful, if_pos hready, if_pos hready']⟩
        rw [remaining, remaining, if_pos hready, if_pos hready', hframe.received, hsent, hframe.consumerDistance_eq]
      · refine .inl (remaining_lt_of_done ?_)
        rw [hframe.received, hsent]
        omega
    | consumer =>
      have hready : ¬ ConsumerReady s := fun hready => hhelp (by rw [helpful, if_pos hready])
      obtain ⟨ring, rfl, hpopped, hpushed, hproducer⟩ := consumer_waits h hready hs
      have hready' : ¬ ConsumerReady { s with ring := ring } := by
        rw [ConsumerReady, hpopped, hpushed]
        exact hready
      refine .inr ⟨?_, by rw [helpful, helpful, if_neg hready, if_neg hready']⟩
      rw [remaining, remaining, if_neg hready, if_neg hready']
      simp only [producerDistance, hproducer]

theorem underway_initial (w : Scenario) (c : SPSCRingBuffer.Capacity) (start : Party → ℕ) (g : Geometry)
    (head : BitVec 64) :
    Underway w (pipeline c start w g head).init := by
  refine ⟨?_, ?_⟩
  · rcases Nat.eq_zero_or_pos w.kMessages with hzero | hpos
    · exact .inr ⟨hzero.symm, rfl, rfl⟩
    · exact .inl hpos
  · rcases Nat.eq_zero_or_pos w.kMessages with hzero | hpos
    · exact .inr ⟨hzero.symm, rfl, rfl⟩
    · exact .inl hpos

/-- Neither thread moves again. -/
theorem done_turn (l : Party × Bool) (hd : s.Done w) : (pipeline c start w g head).turn s l = s := by
  obtain ⟨⟨hproducer, hidle, hsent⟩, hconsumer, ⟨result, hring⟩, hreceived⟩ := hd
  obtain ⟨party, spurious⟩ := l
  have hnone : (pipeline c start w g head).step s (party, spurious) = none := by
    cases party with
    | producer => simp [pipeline, producerStep, hproducer, hidle, hsent]
    | consumer => simp [pipeline, consumerStep, hconsumer, hring, hreceived]
  rw [System.turn, hnone, Option.getD_none]

/-- Under every schedule that is fair to the two threads and in which compare-exchanges fail spuriously only for
some time, there comes an instant from which on both threads are through: every message was received and
found intact, and no slot is in use. -/
theorem messages_delivered (c : SPSCRingBuffer.Capacity) (start : Party → ℕ) (w : Scenario) (g : Geometry)
    (head : BitVec 64) (ha : Accepts g w.requestedSize w.requestedAlign) {sched : ℕ → Party × Bool}
    (fair : Fair fun k => (sched k).1) (calm : ∃ k, ∀ j, k ≤ j → (sched j).2 = false) :
    ∃ k, ∀ j, k ≤ j →
      ((pipeline c start w g head).under sched j).Done w ∧
      ((pipeline c start w g head).under sched j).ring.popped.length = w.kMessages ∧
      ((pipeline c start w g head).under sched j).verifyFailures = 0 ∧
      ((pipeline c start w g head).under sched j).arena.arena.usedSlots = 0 := by
  have hinv : ∀ k, Invariant w c head ((pipeline c start w g head).under sched k) ∧
      Underway w ((pipeline c start w g head).under sched k) :=
    System.under_invariant (P := fun s => Invariant w c head s ∧ Underway w s)
      ⟨invariant_initial w c start g head, underway_initial w c start g head⟩
      (fun _ _ _ h hs => ⟨invariant_step h.1 hs, underway_step h.1 h.2 hs⟩)
  obtain ⟨k₀, hcalm⟩ := calm
  set s₀ := (pipeline c start w g head).under sched k₀
  have hrun : ∀ j, (calmly c start w head s₀).under (fun j => (sched (k₀ + j)).1) j =
      (pipeline c start w g head).under sched (k₀ + j) := by
    refine System.under_from rfl (fun s j => ?_)
    have hlabel : sched (k₀ + j) = ((sched (k₀ + j)).1, false) := Prod.ext rfl (hcalm _ (Nat.le_add_right k₀ j))
    rw [hlabel]
    rfl
  have hfair : Fair fun j => (sched (k₀ + j)).1 := by
    intro party k
    obtain ⟨j, hj, hparty⟩ := fair party (k₀ + k)
    obtain ⟨i, rfl⟩ := Nat.exists_eq_add_of_le (Nat.le_trans (Nat.le_add_right k₀ k) hj)
    exact ⟨i, by omega, hparty⟩
  obtain ⟨k, hk⟩ :=
    System.eventually_of_helpful (fun s => Invariant w c head s ∧ Underway w s) (State.Done w) helpful
    (remaining start w) hfair (fun j => by rw [hrun]; exact hinv _) (fun s h away => helpful_turn ha h.1 h.2 away)
    (fun s party h away => any_turn ha party h.1 h.2 away)
  rw [hrun] at hk
  refine ⟨k₀ + k, fun j hj => ?_⟩
  have hdone : ((pipeline c start w g head).under sched j).Done w :=
    System.under_stable (P := State.Done w) (fun s l hd => by rw [done_turn l hd]; exact hd) hk hj
  obtain ⟨-, hall, -, hslots⟩ := (hinv j).1.done hdone
  exact ⟨hdone, hall, (hinv j).1.failures.2, hslots⟩

/-- The threads take turns, and the first thousand compare-exchanges fail. -/
def unlucky (k : ℕ) : Party × Bool := (if k % 2 = 0 then .producer else .consumer, decide (k < 1000))

theorem messages_delivered_unlucky : ∃ k, ∀ j, k ≤ j →
    (smallPipeline.under unlucky j).Done twoMessages ∧ (smallPipeline.under unlucky j).ring.popped.length = 2 ∧
    (smallPipeline.under unlucky j).verifyFailures = 0 ∧
    (smallPipeline.under unlucky j).arena.arena.usedSlots = 0 := by
  have hfair : Fair fun k => (unlucky k).1 := by
    intro party k
    cases party with
    | producer => exact ⟨2 * k, by omega, if_pos (by omega)⟩
    | consumer => exact ⟨2 * k + 1, by omega, if_neg (by omega)⟩
  exact messages_delivered SPSCRingBuffer.twoSlots (fun _ => 0) twoMessages smallGeometry (BitVec.allOnes 64)
    ⟨by decide, by decide, by decide, by decide⟩ hfair ⟨1000, fun j hj => decide_eq_false (Nat.not_lt.mpr hj)⟩

end Qtx.HandlePipeline
