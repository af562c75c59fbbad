import Qtx.SPSCRingBuffer

/-!
# The invariant of the ring

Positions are counted without wrapping: `s.pushed.length` and `s.popped.length` are
the unwrapped values of the two counters. Each side knows an earlier value of the
other side's counter, and this is what makes its slot access safe.
-/
namespace Qtx.SPSCRingBuffer
open TransitionSystems

variable {T : Type*} (c : Capacity) (start : BitVec 64)

structure SharedInvariant (s : State T) : Prop where
  ordered : s.popped <+: s.pushed
  bounded : s.pushed.length ≤ s.popped.length + c.value
  tail : s.tail = counter start s.pushed.length
  head : s.head = counter start s.popped.length
  filled : ∀ k, s.popped.length ≤ k → k < s.pushed.length →
    s.pushed[k]? = some (s.buffer (slotIndex c (counter start k)))

/-- What the producer relies on inside a call, `seen` being the position of the head
that it knows. -/
def ProducerAt (s : State T) (seen : ℕ) : ProducerPc T → Prop
  | .idle _ | .loadTail _ => True
  | .loadHead _ currentTail => currentTail = counter start s.pushed.length
  | .copySlot _ currentTail =>
    currentTail = counter start s.pushed.length ∧ s.pushed.length < seen + c.value
  | .storeTail value currentTail =>
    currentTail = counter start s.pushed.length ∧ s.pushed.length < seen + c.value ∧
      s.buffer (slotIndex c currentTail) = value

/-- What the consumer relies on inside a call, `seen` being the position of the tail
that it knows. -/
def ConsumerAt (s : State T) (seen : ℕ) : ConsumerPc T → Prop
  | .idle _ | .loadHead => True
  | .loadTail currentHead => currentHead = counter start s.popped.length
  | .copySlot currentHead => currentHead = counter start s.popped.length ∧ s.popped.length < seen
  | .storeHead value currentHead => currentHead = counter start s.popped.length ∧
      s.popped.length < seen ∧ s.pushed[s.popped.length]? = some value

def ProducerInvariant (s : State T) : Prop :=
  ∃ seen, s.cachedHead = counter start seen ∧ seen ≤ s.popped.length ∧
    s.pushed.length ≤ seen + c.value ∧ ProducerAt c start s seen s.producer

def ConsumerInvariant (s : State T) : Prop :=
  ∃ seen, s.cachedTail = counter start seen ∧ s.popped.length ≤ seen ∧
    seen ≤ s.pushed.length ∧ ConsumerAt start s seen s.consumer

structure Invariant (s : State T) : Prop where
  shared : SharedInvariant c start s
  producer : ProducerInvariant c start s
  consumer : ConsumerInvariant start s

variable {c start}

theorem invariant_initial (c : Capacity) (start : BitVec 64) (blank : T) :
    Invariant c start (system c start blank).init := by
  have h0 : start = counter start 0 := (BitVec.add_zero start).symm
  refine ⟨⟨List.prefix_refl _, Nat.zero_le _, h0, h0, ?_⟩, ?_, ?_⟩
  · intro k _ hk
    exact absurd hk (Nat.not_lt_zero k)
  · exact ⟨0, h0, le_rfl, Nat.zero_le _, trivial⟩
  · exact ⟨0, h0, le_rfl, le_rfl, trivial⟩

/-- The full check compares positions: a wrapped difference never misleads it. -/
theorem looksFull_counter (c : Capacity) (start : BitVec 64) {seen k : ℕ} (hseen : seen ≤ k)
    (hk : k ≤ seen + c.value) :
    looksFull c (counter start k) (counter start seen) = true ↔ k = seen + c.value := by
  have hfits := c.fits
  rw [looksFull, decide_eq_true_eq, counter_sub start hseen (by omega)]
  omega

/-- The empty check compares positions as well. -/
theorem counter_eq_iff (c : Capacity) (start : BitVec 64) {j k : ℕ} (hjk : j ≤ k) (hk : k ≤ j + c.value) :
    counter start j = counter start k ↔ j = k := by
  have hfits := c.fits
  constructor
  · exact counter_inj start hjk (by omega)
  · rintro rfl
    rfl

/-- A position is never overtaken: values keep their index when more are pushed. -/
theorem getElem?_append_of_some {l : List T} {k : ℕ} {v : T} (w : T) (h : l[k]? = some v) :
    (l ++ [w])[k]? = some v := by
  rw [List.getElem?_append_left (List.getElem?_eq_some_iff.mp h).1, h]

theorem prefix_concat {l l' : List T} {v : T} (h : l <+: l') (hv : l'[l.length]? = some v) :
    l ++ [v] <+: l' := by
  obtain ⟨rest, rfl⟩ := h
  rw [List.getElem?_append_right le_rfl, Nat.sub_self] at hv
  cases rest with
  | nil => cases hv
  | cons w rest =>
    cases hv
    exact ⟨rest, by simp⟩

theorem SharedInvariant.length_le {s : State T} (h : SharedInvariant c start s) :
    s.popped.length ≤ s.pushed.length :=
  h.ordered.length_le

/-- A step on the caches and program counters alone. -/
private theorem SharedInvariant.unchanged {s s' : State T} (h : SharedInvariant c start s)
    (hh : s'.head = s.head) (ht : s'.tail = s.tail) (hb : s'.buffer = s.buffer)
    (hpush : s'.pushed = s.pushed) (hpop : s'.popped = s.popped) : SharedInvariant c start s' := by
  obtain ⟨h1, h2, h3, h4, h5⟩ := h
  rw [← hpush, ← hpop] at h1 h2
  rw [← hpush, ← ht] at h3
  rw [← hpop, ← hh] at h4
  rw [← hpush, ← hpop, ← hb] at h5
  exact ⟨h1, h2, h3, h4, h5⟩

private theorem consumer_push {s s' : State T} (h : ConsumerInvariant start s)
    (hc : s'.consumer = s.consumer) (ht : s'.cachedTail = s.cachedTail)
    (hpop : s'.popped = s.popped) (hpush : s'.pushed = s.pushed ∨ ∃ v, s'.pushed = s.pushed ++ [v]) :
    ConsumerInvariant start s' := by
  obtain ⟨seen, h1, h2, h3, h4⟩ := h
  have hlen : s.pushed.length ≤ s'.pushed.length := by
    rcases hpush with hp | ⟨v, hp⟩
    · rw [hp]
    · rw [hp, List.length_append]
      omega
  refine ⟨seen, ht ▸ h1, hpop ▸ h2, h3.trans hlen, ?_⟩
  rw [hc]
  cases hpc : s.consumer with
  | idle _ => trivial
  | loadHead => trivial
  | loadTail currentHead => simpa only [ConsumerAt, hpc, hpop] using h4
  | copySlot currentHead => simpa only [ConsumerAt, hpc, hpop] using h4
  | storeHead value currentHead =>
    simp only [ConsumerAt, hpc, hpop] at h4 ⊢
    refine ⟨h4.1, h4.2.1, ?_⟩
    rcases hpush with hp | ⟨v, hp⟩
    · rw [hp]
      exact h4.2.2
    · rw [hp]
      exact getElem?_append_of_some v h4.2.2

private theorem producer_pop {s s' : State T} (h : ProducerInvariant c start s)
    (hp : s'.producer = s.producer) (hh : s'.cachedHead = s.cachedHead)
    (hpush : s'.pushed = s.pushed) (hbuf : s'.buffer = s.buffer)
    (hpop : s.popped.length ≤ s'.popped.length) : ProducerInvariant c start s' := by
  obtain ⟨seen, h1, h2, h3, h4⟩ := h
  refine ⟨seen, hh ▸ h1, h2.trans hpop, hpush ▸ h3, ?_⟩
  rw [hp]
  cases hpc : s.producer with
  | idle _ => trivial
  | loadTail _ => trivial
  | loadHead value currentTail => simpa only [ProducerAt, hpc, hpush] using h4
  | copySlot value currentTail => simpa only [ProducerAt, hpc, hpush] using h4
  | storeTail value currentTail => simpa only [ProducerAt, hpc, hpush, hbuf] using h4

theorem invariant_pushStep {s s' : State T} (h : Invariant c start s)
    (hs : pushStep c s = some s') : Invariant c start s' := by
  obtain ⟨hshared, ⟨seen, hcached, hseen, hroom, hat⟩, hcons⟩ := h
  have hle := hshared.length_le
  unfold pushStep at hs
  cases hpc : s.producer with
  | idle _ => simp [hpc] at hs
  | loadTail value =>
    have hfull := looksFull_counter c start (hseen.trans hle) hroom
    rw [← hcached, ← hshared.tail] at hfull
    simp only [hpc] at hs
    split_ifs at hs with hf
    · cases hs
      exact ⟨hshared.unchanged rfl rfl rfl rfl rfl,
        ⟨seen, hcached, hseen, hroom, hshared.tail⟩, consumer_push hcons rfl rfl rfl (.inl rfl)⟩
    · cases hs
      rw [hfull] at hf
      exact ⟨hshared.unchanged rfl rfl rfl rfl rfl,
        ⟨seen, hcached, hseen, hroom, hshared.tail, Nat.lt_of_le_of_ne hroom hf⟩,
        consumer_push hcons rfl rfl rfl (.inl rfl)⟩
  | loadHead value currentTail =>
    simp only [hpc, ProducerAt] at hs hat
    have hfull := looksFull_counter c start hle hshared.bounded
    rw [← hat, ← hshared.head] at hfull
    split_ifs at hs with hf
    · cases hs
      exact ⟨hshared.unchanged rfl rfl rfl rfl rfl,
        ⟨s.popped.length, hshared.head, le_rfl, hshared.bounded, trivial⟩,
        consumer_push hcons rfl rfl rfl (.inl rfl)⟩
    · cases hs
      rw [hfull] at hf
      exact ⟨hshared.unchanged rfl rfl rfl rfl rfl,
        ⟨s.popped.length, hshared.head, le_rfl, hshared.bounded, hat,
          Nat.lt_of_le_of_ne hshared.bounded hf⟩,
        consumer_push hcons rfl rfl rfl (.inl rfl)⟩
  | copySlot value currentTail =>
    simp only [hpc, ProducerAt, Option.some.injEq] at hs hat
    obtain ⟨rfl, hlt⟩ := hat
    subst hs
    refine ⟨⟨hshared.ordered, hshared.bounded, hshared.tail, hshared.head, ?_⟩,
      ⟨seen, hcached, hseen, hroom, rfl, hlt, Function.update_self ..⟩,
      consumer_push hcons rfl rfl rfl (.inl rfl)⟩
    -- the written slot is not one of the outstanding ones
    intro k hk hk'
    have hwindow : s.pushed.length < k + c.value := Nat.lt_of_lt_of_le hlt (by simpa using hseen.trans hk)
    have hne := slotIndex_ne (c := c) start hk' hwindow
    simpa only [Function.update_of_ne hne] using hshared.filled k hk hk'
  | storeTail value currentTail =>
    simp only [hpc, ProducerAt, Option.some.injEq] at hs hat
    obtain ⟨rfl, hlt, hval⟩ := hat
    subst hs
    refine ⟨⟨?_, ?_, ?_, hshared.head, ?_⟩, ⟨seen, hcached, hseen, ?_, trivial⟩,
      consumer_push hcons rfl rfl rfl (.inr ⟨value, rfl⟩)⟩
    · exact hshared.ordered.trans (List.prefix_append _ _)
    · simp only [List.length_append, List.length_singleton]
      omega
    · simp only [List.length_append, List.length_singleton, counter_succ]
    · intro k hk hk'
      simp only [List.length_append, List.length_singleton] at hk'
      rcases Nat.lt_succ_iff_lt_or_eq.mp hk' with hk' | rfl
      · exact getElem?_append_of_some value (hshared.filled k hk hk')
      · simp only [List.getElem?_concat_length, hval]
    · simp only [List.length_append, List.length_singleton]
      omega

theorem invariant_popStep {s s' : State T} (h : Invariant c start s)
    (hs : popStep c s = some s') : Invariant c start s' := by
  obtain ⟨hshared, hprod, ⟨seen, hcached, hseen, hknown, hat⟩⟩ := h
  have hle := hshared.length_le
  have hbound := hshared.bounded
  unfold popStep at hs
  cases hpc : s.consumer with
  | idle _ => simp [hpc] at hs
  | loadHead =>
    have hempty := counter_eq_iff c start hseen (by omega)
    rw [← hcached, ← hshared.head] at hempty
    simp only [hpc] at hs
    split_ifs at hs with he
    · cases hs
      exact ⟨hshared.unchanged rfl rfl rfl rfl rfl,
        producer_pop hprod rfl rfl rfl rfl le_rfl, ⟨seen, hcached, hseen, hknown, hshared.head⟩⟩
    · cases hs
      rw [hempty] at he
      exact ⟨hshared.unchanged rfl rfl rfl rfl rfl,
        producer_pop hprod rfl rfl rfl rfl le_rfl,
        ⟨seen, hcached, hseen, hknown, hshared.head, Nat.lt_of_le_of_ne hseen he⟩⟩
  | loadTail currentHead =>
    simp only [hpc, ConsumerAt] at hs hat
    have hempty := counter_eq_iff c start hle hbound
    rw [← hat, ← hshared.tail] at hempty
    split_ifs at hs with he
    · cases hs
      exact ⟨hshared.unchanged rfl rfl rfl rfl rfl,
        producer_pop hprod rfl rfl rfl rfl le_rfl,
        ⟨s.pushed.length, hshared.tail, hle, le_rfl, trivial⟩⟩
    · cases hs
      rw [hempty] at he
      exact ⟨hshared.unchanged rfl rfl rfl rfl rfl,
        producer_pop hprod rfl rfl rfl rfl le_rfl,
        ⟨s.pushed.length, hshared.tail, hle, le_rfl, hat, Nat.lt_of_le_of_ne hle he⟩⟩
  | copySlot currentHead =>
    simp only [hpc, ConsumerAt, Option.some.injEq] at hs hat
    obtain ⟨rfl, hlt⟩ := hat
    subst hs
    have hvalue := hshared.filled _ le_rfl (Nat.lt_of_lt_of_le hlt hknown)
    exact ⟨hshared.unchanged rfl rfl rfl rfl rfl,
      producer_pop hprod rfl rfl rfl rfl le_rfl, ⟨seen, hcached, hseen, hknown, rfl, hlt, hvalue⟩⟩
  | storeHead value currentHead =>
    simp only [hpc, ConsumerAt, Option.some.injEq] at hs hat
    obtain ⟨rfl, hlt, hval⟩ := hat
    subst hs
    refine ⟨⟨prefix_concat hshared.ordered hval, ?_, hshared.tail, ?_, ?_⟩,
      producer_pop hprod rfl rfl rfl rfl ?_, ⟨seen, hcached, ?_, hknown, trivial⟩⟩
    · simp only [List.length_append, List.length_singleton]
      omega
    · simp only [List.length_append, List.length_singleton, counter_succ]
    · intro k hk hk'
      simp only [List.length_append, List.length_singleton] at hk
      exact hshared.filled k (by omega) hk'
    · simp only [List.length_append, List.length_singleton]
      omega
    · simp only [List.length_append, List.length_singleton]
      omega

theorem invariant_step {s s' : State T} {l : Label T} (h : Invariant c start s)
    (hs : step c s l = some s') : Invariant c start s' := by
  cases l with
  | push => exact invariant_pushStep h hs
  | pop => exact invariant_popStep h hs
  | callPush value =>
    obtain ⟨hshared, ⟨seen, h1, h2, h3, -⟩, hcons⟩ := h
    simp only [step] at hs
    split at hs
    · cases hs
      exact ⟨hshared.unchanged rfl rfl rfl rfl rfl,
        ⟨seen, h1, h2, h3, trivial⟩, consumer_push hcons rfl rfl rfl (.inl rfl)⟩
    · cases hs
  | callPop =>
    obtain ⟨hshared, hprod, ⟨seen, h1, h2, h3, -⟩⟩ := h
    simp only [step] at hs
    split at hs
    · cases hs
      exact ⟨hshared.unchanged rfl rfl rfl rfl rfl,
        producer_pop hprod rfl rfl rfl rfl le_rfl, ⟨seen, h1, h2, h3, trivial⟩⟩
    · cases hs

end Qtx.SPSCRingBuffer
