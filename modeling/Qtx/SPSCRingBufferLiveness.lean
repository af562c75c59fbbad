import Qtx.SPSCRingBufferTurns

/-!
# The waiting loops come to an end

Under a fair schedule the two threads exchange every value that can be exchanged, for every
capacity. The thread that can go on is the helpful one: a thread about to return, the one that
pops while the ring holds a value that is wanted, else the one that pushes. The tries of the
other thread may fail for ever and do no harm.
-/
namespace Qtx.SPSCRingBuffer
open TransitionSystems

variable {T : Type*} {c : Capacity} {start : BitVec 64} {blank : T} {xs : List T} {n : ℕ} {s s' : WaitState T}

instance (n : ℕ) (s : WaitState T) : Decidable (PopReady n s) := inferInstanceAs (Decidable (_ ∨ _))

def helpful (n : ℕ) (s : WaitState T) : Side := if PopReady n s then .consumer else .producer

/-- The weight of what is left outgrows every distance. -/
def remaining (xs : List T) (n : ℕ) (s : WaitState T) : ℕ :=
  8 * (pushesLeft xs s + popsLeft n s) + if PopReady n s then s.popDistance else s.pushDistance

/-- Nothing is left that either thread can do for the other one or for itself. -/
def Settled (c : Capacity) (xs : List T) (n : ℕ) (s : WaitState T) : Prop := ¬ PopReady n s ∧ ¬ PushReady c xs s

theorem PushTurn.popReady_iff (h : PushTurn c xs s s') (hpushed : s'.ring.pushed = s.ring.pushed) :
    PopReady n s' ↔ PopReady n s := by
  simp only [PopReady, WaitState.popReturns, h.frame.popper, h.frame.consumer, h.frame.popped, hpushed]

theorem PushTurn.popsLeft_eq (h : PushTurn c xs s s') : popsLeft n s' = popsLeft n s := by
  simp only [popsLeft, WaitState.popReturns, h.frame.popper, h.frame.consumer, h.frame.popped]

theorem PushTurn.popDistance_eq (h : PushTurn c xs s s') : s'.popDistance = s.popDistance := by
  simp only [WaitState.popDistance, h.frame.popper, h.frame.consumer]

theorem PopTurn.pushReady_iff (h : PopTurn n s s') (hpopped : s'.ring.popped = s.ring.popped) :
    PushReady c xs s' ↔ PushReady c xs s := by
  simp only [PushReady, WaitState.pushReturns, h.frame.pusher, h.frame.producer, h.frame.pushed, hpopped]

theorem PopTurn.pushesLeft_eq (h : PopTurn n s s') : pushesLeft xs s' = pushesLeft xs s := by
  simp only [pushesLeft, WaitState.pushReturns, h.frame.pusher, h.frame.producer, h.frame.pushed]

theorem PopTurn.pushDistance_eq (h : PopTurn n s s') : s'.pushDistance = s.pushDistance := by
  simp only [WaitState.pushDistance, h.frame.pusher, h.frame.producer]

/-- Something got done: the weight drops by more than any distance can rise. -/
theorem remaining_lt (h : pushesLeft xs s' + popsLeft n s' < pushesLeft xs s + popsLeft n s) :
    remaining xs n s' < remaining xs n s := by
  have hpush := pushDistance_le s'
  have hpop := popDistance_le s'
  unfold remaining
  split_ifs <;> omega

theorem PushTurn.remaining_lt_or (h : PushTurn c xs s s') (away : ¬ Settled c xs n s) :
    remaining xs n s' < remaining xs n s ∨
      PopReady n s ∧ remaining xs n s' = remaining xs n s ∧ helpful n s' = helpful n s := by
  rcases h.effect with ⟨-, hless⟩ | ⟨hpushed, hret, hnear⟩
  · refine .inl (remaining_lt ?_)
    rw [h.popsLeft_eq]
    omega
  · have hleft : pushesLeft xs s' = pushesLeft xs s := by rw [pushesLeft, pushesLeft, hpushed, hret]
    by_cases hpop : PopReady n s
    · have hpop' := (h.popReady_iff hpushed).mpr hpop
      refine .inr ⟨hpop, ?_, ?_⟩
      · rw [remaining, remaining, if_pos hpop, if_pos hpop', hleft, h.popsLeft_eq, h.popDistance_eq]
      · rw [helpful, helpful, if_pos hpop, if_pos hpop']
    · have hpop' : ¬ PopReady n s' := fun h' => hpop ((h.popReady_iff hpushed).mp h')
      have hready : PushReady c xs s := by
        by_contra hnot
        exact away ⟨hpop, hnot⟩
      have hlt := hnear hready
      refine .inl ?_
      rw [remaining, remaining, if_neg hpop, if_neg hpop', hleft, h.popsLeft_eq]
      omega

theorem PopTurn.remaining_lt_or (xs : List T) (h : PopTurn n s s') :
    remaining xs n s' < remaining xs n s ∨
      ¬ PopReady n s ∧ remaining xs n s' = remaining xs n s ∧ helpful n s' = helpful n s := by
  rcases h.effect with ⟨-, hless⟩ | ⟨hpopped, hret, hnear⟩
  · refine .inl (remaining_lt ?_)
    rw [h.pushesLeft_eq]
    omega
  · have hleft : popsLeft n s' = popsLeft n s := by rw [popsLeft, popsLeft, hpopped, hret]
    have hiff : PopReady n s' ↔ PopReady n s := by
      rw [PopReady, PopReady, hret, hpopped, h.frame.pushed]
    by_cases hpop : PopReady n s
    · have hlt := hnear hpop
      refine .inl ?_
      rw [remaining, remaining, if_pos hpop, if_pos (hiff.mpr hpop), hleft, h.pushesLeft_eq]
      omega
    · have hpop' : ¬ PopReady n s' := fun h' => hpop (hiff.mp h')
      refine .inr ⟨hpop, ?_, ?_⟩
      · rw [remaining, remaining, if_neg hpop, if_neg hpop', hleft, h.pushesLeft_eq, h.pushDistance_eq]
      · rw [helpful, helpful, if_neg hpop, if_neg hpop']

theorem helpful_turn (blank : T) (h : WaitInvariant c start xs n s) (away : ¬ Settled c xs n s) :
    remaining xs n ((waits c start blank xs n).turn s (helpful n s)) < remaining xs n s := by
  unfold helpful
  split_ifs with hpop
  · rcases (popTurn blank h).remaining_lt_or xs with hlt | ⟨hnot, -⟩
    · exact hlt
    · exact absurd hpop hnot
  · rcases (pushTurn blank h).remaining_lt_or away with hlt | ⟨hyes, -⟩
    · exact hlt
    · exact absurd hyes hpop

theorem any_turn (blank : T) (side : Side) (h : WaitInvariant c start xs n s) (away : ¬ Settled c xs n s) :
    remaining xs n ((waits c start blank xs n).turn s side) < remaining xs n s ∨
      remaining xs n ((waits c start blank xs n).turn s side) = remaining xs n s ∧
        helpful n ((waits c start blank xs n).turn s side) = helpful n s := by
  cases side with
  | producer => exact ((pushTurn blank h).remaining_lt_or away).imp_right And.right
  | consumer => exact ((popTurn blank h).remaining_lt_or xs).imp_right And.right

/-- When nothing can be done any more, every turn leaves it at that. -/
theorem settled_turn (side : Side) (h : WaitInvariant c start xs n s) (hs : Settled c xs n s) :
    Settled c xs n ((waits c start blank xs n).turn s side) := by
  obtain ⟨hpop, hpush⟩ := hs
  cases side with
  | producer =>
    have hturn := pushTurn blank h
    rcases hturn.effect with ⟨hready, -⟩ | ⟨hpushed, hret, -⟩
    · exact absurd hready hpush
    · refine ⟨fun h' => hpop ((hturn.popReady_iff hpushed).mp h'), fun h' => hpush ?_⟩
      rwa [PushReady, hret, hpushed, hturn.frame.popped] at h'
  | consumer =>
    have hturn := popTurn blank h
    rcases hturn.effect with ⟨hready, -⟩ | ⟨hpopped, hret, -⟩
    · exact absurd hready hpop
    · refine ⟨fun h' => hpop ?_, fun h' => hpush ((hturn.pushReady_iff hpopped).mp h')⟩
      rwa [PopReady, hret, hpopped, hturn.frame.pushed] at h'

/-- What is left of the values is what the thread that pushes still has, the one it waits with included. -/
theorem Pushing.split (h : Pushing xs s) : ∃ rest, s.ring.pushed ++ rest = xs := by
  unfold Pushing at h
  split at h
  · exact ⟨_, h.2⟩
  · rcases h with ⟨-, h⟩ | ⟨-, h⟩
    · exact ⟨_, h⟩
    · exact ⟨_, h⟩

/-- A thread that is not about to return is done when all its values are in the ring, and only then. -/
theorem producerDone_iff (h : Pushing xs s) (hret : s.pushReturns = false) :
    s.ProducerDone ↔ s.ring.pushed.length = xs.length := by
  unfold WaitState.ProducerDone
  cases hp : s.pusher with
  | outside =>
    simp only [Pushing, hp] at h
    rw [← h.2, List.length_append, ← List.length_eq_zero_iff]
    simp
  | waiting value loop =>
    simp only [Pushing, hp] at h
    rcases h with ⟨-, hxs⟩ | ⟨hdone, -⟩
    · rw [← hxs, List.length_append, List.length_cons]
      simp
    · simp [WaitState.pushReturns, hp, hdone] at hret

theorem consumerDone_iff (h : Popping n s) (hret : s.popReturns = false) :
    s.ConsumerDone ↔ s.ring.popped.length = n := by
  unfold WaitState.ConsumerDone
  cases hp : s.popper with
  | outside =>
    simp only [Popping, hp] at h
    simp only [and_true]
    omega
  | waiting loop =>
    simp only [Popping, hp] at h
    rcases h with ⟨-, -, hn⟩ | ⟨value, hdone, -⟩
    · simp only [reduceCtorEq, and_false, false_iff]
      omega
    · simp [WaitState.popReturns, hp, hdone] at hret

theorem Popping.received_prefix (h : Popping n s) : s.received <+: s.ring.popped := by
  unfold Popping at h
  split at h
  · rw [h.2.1]
  · rcases h with ⟨-, h, -⟩ | ⟨value, -, h, -⟩
    · rw [h]
    · exact h ▸ List.prefix_append _ _

theorem Popping.received_eq (h : Popping n s) (hret : s.popReturns = false) : s.received = s.ring.popped := by
  cases hp : s.popper with
  | outside =>
    simp only [Popping, hp] at h
    exact h.2.1
  | waiting loop =>
    simp only [Popping, hp] at h
    rcases h with ⟨-, h, -⟩ | ⟨value, hdone, -⟩
    · exact h
    · simp [WaitState.popReturns, hp, hdone] at hret

theorem Popping.length_le (h : Popping n s) : s.ring.popped.length ≤ n := by
  unfold Popping at h
  split at h
  · omega
  · rcases h with ⟨-, -, h⟩ | ⟨value, -, -, h⟩ <;> omega

theorem eq_take_of_prefix {l : List T} {m : ℕ} (h : l <+: xs) (hlen : l.length = min m xs.length) :
    l = xs.take m := by
  rw [List.prefix_iff_eq_take.mp h, hlen]
  rcases Nat.le_total m xs.length with hle | hle
  · rw [Nat.min_eq_left hle]
  · rw [Nat.min_eq_right hle, List.take_length, List.take_of_length_le hle]

/-- Nothing can be done any more, and this is all that was exchanged. -/
theorem Settled.outcome (h : WaitInvariant c start xs n s) (hs : Settled c xs n s) :
    s.received = xs.take n ∧ s.ring.pushed = xs.take (n + c.value) ∧
      (s.ProducerDone ↔ xs.length ≤ n + c.value) ∧ (s.ConsumerDone ↔ n ≤ xs.length) := by
  obtain ⟨hpop, hpush⟩ := hs
  have hpopRet : s.popReturns = false := by
    by_contra hret
    exact hpop (.inl (by simpa using hret))
  have hpushRet : s.pushReturns = false := by
    by_contra hret
    exact hpush (.inl (by simpa using hret))
  have hpopLen : ¬ (s.ring.popped.length < n ∧ s.ring.popped.length < s.ring.pushed.length) :=
    fun hlt => hpop (.inr hlt)
  have hpushLen : ¬ (s.ring.pushed.length < xs.length ∧ s.ring.pushed.length < s.ring.popped.length + c.value) :=
    fun hlt => hpush (.inr hlt)
  obtain ⟨rest, hrest⟩ := h.pushing.split
  have hpushed : s.ring.pushed <+: xs := ⟨rest, hrest⟩
  have hle := hpushed.length_le
  have hordered := h.ring.shared.length_le
  have hbounded := h.ring.shared.bounded
  have hn := h.popping.length_le
  have hpos := c.pos
  refine ⟨?_, eq_take_of_prefix hpushed (by omega), ?_, ?_⟩
  · rw [h.popping.received_eq hpopRet]
    exact eq_take_of_prefix (h.ring.shared.ordered.trans hpushed) (by omega)
  · rw [producerDone_iff h.pushing hpushRet]
    omega
  · rw [consumerDone_iff h.popping hpopRet]
    omega

/-- At every instant of every schedule the values received are the first of those pushed, and under every
fair one there comes an instant from which on all `n` pops that have a value to take have returned it,
every push with room for its value has returned, and a thread waits for ever exactly when the other one
brings too few pops, respectively values. -/
theorem waits_settle (c : Capacity) (start : BitVec 64) (blank : T) (xs : List T) (n : ℕ) (sched : ℕ → Side) :
    (∀ k, ((waits c start blank xs n).under sched k).received <+: xs) ∧
    (Fair sched → ∃ k, ∀ j, k ≤ j →
      ((waits c start blank xs n).under sched j).received = xs.take n ∧
      ((waits c start blank xs n).under sched j).ring.pushed = xs.take (n + c.value) ∧
      (((waits c start blank xs n).under sched j).ProducerDone ↔ xs.length ≤ n + c.value) ∧
      (((waits c start blank xs n).under sched j).ConsumerDone ↔ n ≤ xs.length)) := by
  have hinv := waitInvariant_under c start blank xs n sched
  constructor
  · intro k
    obtain ⟨rest, hrest⟩ := (hinv k).pushing.split
    exact (hinv k).popping.received_prefix.trans ((hinv k).ring.shared.ordered.trans ⟨rest, hrest⟩)
  · intro fair
    obtain ⟨k, hk⟩ := System.eventually_of_helpful _ (Settled c xs n) (helpful n) (remaining xs n) fair hinv
      (fun _ => helpful_turn blank) (fun _ side => any_turn blank side)
    refine ⟨k, fun j hkj => ?_⟩
    have hsettled : WaitInvariant c start xs n ((waits c start blank xs n).under sched j) ∧
        Settled c xs n ((waits c start blank xs n).under sched j) := by
      refine System.under_stable (P := fun s => WaitInvariant c start xs n s ∧ Settled c xs n s) ?_ ⟨hinv k, hk⟩ hkj
      rintro s side ⟨h, hs⟩
      exact ⟨System.turn_preserves (fun _ _ _ => waitInvariant_step) side h, settled_turn side h hs⟩
    exact hsettled.2.outcome hsettled.1

/-- The threads take turns, and three values go through a ring of two slots. -/
theorem waits_settle_alternating : ∃ k, ∀ j, k ≤ j →
    ((waits twoSlots 0#64 false [true, false, true] 3).under
      (fun i => if i % 2 = 0 then .producer else .consumer) j).received = [true, false, true] := by
  have hfair : Fair (fun i : ℕ => if i % 2 = 0 then Side.producer else .consumer) := by
    intro side k
    cases side with
    | producer => exact ⟨2 * k, by omega, if_pos (by omega)⟩
    | consumer => exact ⟨2 * k + 1, by omega, if_neg (by omega)⟩
  obtain ⟨k, hk⟩ := (waits_settle twoSlots 0#64 false [true, false, true] 3
    (fun i => if i % 2 = 0 then .producer else .consumer)).2 hfair
  exact ⟨k, fun j hj => (hk j hj).1⟩

end Qtx.SPSCRingBuffer
