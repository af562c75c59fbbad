import Qtx.CoreTypes
import Qtx.TransitionSystems
import Mathlib.Data.List.Infix
import Mathlib.Data.Int.ModEq

/-!
# The single-producer single-consumer ring

One step is one atomic load or store of `head_` or `tail_`, or the copy of a slot.
The checks of a side against its own cached counter need no step of their own: they
are taken together with the load whose result they use. Both overloads of `try_push`
have the body below, and so have both overloads of `try_pop`.

`pushed` and `popped` are not in the source. They record the values whose `tail_`
store, respectively `head_` store, has happened.
-/
namespace Qtx.SPSCRingBuffer
open TransitionSystems

structure Capacity where
  value : ℕ
  isPowerOfTwo : isPowerOfTwo value
  fits : value < 2 ^ 64

def Capacity.kMask (c : Capacity) : BitVec 64 := BitVec.ofNat 64 c.value - 1#64

/-- Where the producer stands; `idle` keeps what its last `try_push` returned. -/
inductive ProducerPc (T : Type*)
  | idle (result : Option Bool)
  | loadTail (value : T)
  | loadHead (value : T) (currentTail : BitVec 64)
  | copySlot (value : T) (currentTail : BitVec 64)
  | storeTail (value : T) (currentTail : BitVec 64)

/-- Where the consumer stands; `idle` keeps what its last `try_pop` returned. -/
inductive ConsumerPc (T : Type*)
  | idle (result : Option (Option T))
  | loadHead
  | loadTail (currentHead : BitVec 64)
  | copySlot (currentHead : BitVec 64)
  | storeHead (value : T) (currentHead : BitVec 64)

structure State (T : Type*) where
  head : BitVec 64
  cachedTail : BitVec 64
  tail : BitVec 64
  cachedHead : BitVec 64
  buffer : ℕ → T
  producer : ProducerPc T
  consumer : ConsumerPc T
  pushed : List T
  popped : List T

inductive Label (T : Type*)
  | callPush (value : T)
  | callPop
  | push
  | pop

variable {T : Type*} (c : Capacity)

def slotIndex (counter : BitVec 64) : ℕ := (counter &&& c.kMask).toNat

/-- `current_tail - cached_head_ >= kCapacity`, on unsigned 64-bit counters. -/
def looksFull (currentTail cachedHead : BitVec 64) : Bool :=
  c.value ≤ (currentTail - cachedHead).toNat

def pushStep (s : State T) : Option (State T) :=
  match s.producer with
  | .idle _ => none
  | .loadTail value =>
    let currentTail := s.tail
    if looksFull c currentTail s.cachedHead then
      some { s with producer := .loadHead value currentTail }
    else some { s with producer := .copySlot value currentTail }
  | .loadHead value currentTail =>
    let cachedHead := s.head
    if looksFull c currentTail cachedHead then
      some { s with cachedHead := cachedHead, producer := .idle (some false) }
    else some { s with cachedHead := cachedHead, producer := .copySlot value currentTail }
  | .copySlot value currentTail =>
    some { s with
      buffer := Function.update s.buffer (slotIndex c currentTail) value
      producer := .storeTail value currentTail }
  | .storeTail value currentTail =>
    some { s with
      tail := currentTail + 1#64
      pushed := s.pushed ++ [value]
      producer := .idle (some true) }

def popStep (s : State T) : Option (State T) :=
  match s.consumer with
  | .idle _ => none
  | .loadHead =>
    let currentHead := s.head
    if currentHead = s.cachedTail then some { s with consumer := .loadTail currentHead }
    else some { s with consumer := .copySlot currentHead }
  | .loadTail currentHead =>
    let cachedTail := s.tail
    if currentHead = cachedTail then
      some { s with cachedTail := cachedTail, consumer := .idle (some none) }
    else some { s with cachedTail := cachedTail, consumer := .copySlot currentHead }
  | .copySlot currentHead =>
    some { s with consumer := .storeHead (s.buffer (slotIndex c currentHead)) currentHead }
  | .storeHead value currentHead =>
    some { s with
      head := currentHead + 1#64
      popped := s.popped ++ [value]
      consumer := .idle (some (some value)) }

def step (s : State T) : Label T → Option (State T)
  | .callPush value => match s.producer with
    | .idle _ => some { s with producer := .loadTail value }
    | _ => none
  | .callPop => match s.consumer with
    | .idle _ => some { s with consumer := .loadHead }
    | _ => none
  | .push => pushStep c s
  | .pop => popStep c s

/-- The ring of `T`s whose counters and caches all start at `start`. The constructor
takes `start = 0`. -/
def system (start : BitVec 64) (blank : T) : System (State T) (Label T) where
  init := ⟨start, start, start, start, fun _ => blank, .idle none, .idle none, [], []⟩
  step := step c

/-- The slot that a step writes. -/
def writes (s : State T) : Label T → Option ℕ
  | .push => match s.producer with
    | .copySlot _ currentTail => some (slotIndex c currentTail)
    | _ => none
  | _ => none

/-- The counter value after `k` steps from the common starting index. -/
def counter (start : BitVec 64) (k : ℕ) : BitVec 64 := start + BitVec.ofNat 64 k

variable {c}

theorem Capacity.pos (c : Capacity) : 0 < c.value := by
  obtain ⟨k, hk⟩ := isPowerOfTwo_iff.mp c.isPowerOfTwo
  rw [hk]
  exact Nat.two_pow_pos k

theorem counter_succ (start : BitVec 64) (k : ℕ) : counter start k + 1#64 = counter start (k + 1) := by
  rw [counter, counter, BitVec.ofNat_add, BitVec.add_assoc]

/-- The distance of two counters is exact although each of them may have wrapped. -/
theorem counter_sub (start : BitVec 64) {j k : ℕ} (hjk : j ≤ k) (hlt : k - j < 2 ^ 64) :
    (counter start k - counter start j).toNat = k - j := by
  have h : counter start k = counter start j + BitVec.ofNat 64 (k - j) := by
    rw [counter, counter, BitVec.add_assoc, ← BitVec.ofNat_add, Nat.add_sub_cancel' hjk]
  rw [h, BitVec.add_comm, BitVec.add_sub_cancel, BitVec.toNat_ofNat, Nat.mod_eq_of_lt hlt]

theorem counter_inj (start : BitVec 64) {j k : ℕ} (hjk : j ≤ k) (hlt : k - j < 2 ^ 64)
    (h : counter start j = counter start k) : j = k := by
  have hd := counter_sub start hjk hlt
  rw [h, BitVec.sub_self, BitVec.toNat_zero] at hd
  omega

theorem slotIndex_counter (start : BitVec 64) (k : ℕ) :
    slotIndex c (counter start k) = (start.toNat + k) % c.value := by
  obtain ⟨e, he⟩ := isPowerOfTwo_iff.mp c.isPowerOfTwo
  have hlt : e < 64 := (Nat.pow_lt_pow_iff_right (Nat.one_lt_two)).mp (he ▸ c.fits)
  have hmask : c.kMask.toNat = 2 ^ e - 1 := by
    have h1 : 1#64 ≤ BitVec.ofNat 64 c.value := by
      rw [BitVec.le_def, BitVec.toNat_ofNat, BitVec.toNat_ofNat, Nat.mod_eq_of_lt c.fits]
      exact c.pos
    rw [Capacity.kMask, BitVec.toNat_sub_of_le h1, BitVec.toNat_ofNat, Nat.mod_eq_of_lt c.fits, he]
    rfl
  rw [slotIndex, BitVec.toNat_and, hmask, Nat.and_two_pow_sub_one_eq_mod, counter, BitVec.toNat_add,
    BitVec.toNat_ofNat, Nat.add_mod_mod, he, Nat.mod_mod_of_dvd _ (pow_dvd_pow 2 hlt.le)]

/-- Two positions less than a capacity apart use different slots. -/
theorem slotIndex_ne (start : BitVec 64) {j k : ℕ} (hjk : j < k) (hlt : k < j + c.value) :
    slotIndex c (counter start j) ≠ slotIndex c (counter start k) := by
  rw [slotIndex_counter, slotIndex_counter]
  intro h
  have hm : start.toNat + j ≡ start.toNat + k [MOD c.value] := h
  have hd := (Nat.modEq_iff_dvd' (by omega)).mp hm
  have := Nat.le_of_dvd (by omega) hd
  omega

end Qtx.SPSCRingBuffer
