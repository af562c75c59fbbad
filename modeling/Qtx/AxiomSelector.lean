import Qtx.WordBits

/-!
# The bitmap slot selector

A one-bit marks a free slot. `acquire` sweeps the words circularly from a start
word that depends on the calling thread, twice, with a bounded number of
compare-exchange attempts on each word. Here one thread runs alone, so every
compare-exchange sees the word it loaded; `AxiomSelectorThreads` interleaves the
atomic steps of many threads.
-/
namespace Qtx

/-- The slot counts the template admits. -/
structure SlotCount where
  slots : ℕ
  pos : 0 < slots
  mod_eq : slots % 64 = 0
  fits : slots < 2 ^ 64

namespace SlotCount

def kWords (c : SlotCount) : ℕ := c.slots / 64

theorem kWords_mul (c : SlotCount) : c.kWords * 64 = c.slots :=
  Nat.div_mul_cancel (Nat.dvd_of_mod_eq_zero c.mod_eq)

theorem kWords_pos (c : SlotCount) : 0 < c.kWords := by
  have h := c.kWords_mul
  have hp := c.pos
  omega

end SlotCount

/-- The smallest bitmap: one word. -/
def oneWord : SlotCount := ⟨64, by decide, by decide, by decide⟩

structure AxiomSelector (c : SlotCount) where
  words : ℕ → BitVec 64

namespace AxiomSelector
open WordBits

variable {c : SlotCount}

def kBitsPerWord : ℕ := 64

def kMaxRetriesPerWord : ℕ := 2

/-- The constructor stores `~0` in every word. -/
def new : AxiomSelector c := ⟨fun _ => BitVec.allOnes 64⟩

/-- `mixThreadId() % kWords`, for the hash of the calling thread. -/
def threadStartWord (c : SlotCount) (mixThreadId : ℕ) : ℕ := mixThreadId % c.kWords

/-- The word visited at position `i` of a sweep. -/
def wordIdx (c : SlotCount) (start i : ℕ) : ℕ := (start + i) % c.kWords

def bitInWord (expected : BitVec 64) : ℕ := expected.ctz.toNat

def desired (expected : BitVec 64) : BitVec 64 :=
  expected &&& ~~~(BitVec.twoPow 64 (bitInWord expected))

/-- The inner `while`: attempts left, the word in memory and the loaded copy. -/
def tryWord (value : BitVec 64) : ℕ → BitVec 64 → Option (ℕ × BitVec 64)
  | 0, _ => none
  | retries + 1, expected =>
    if expected = 0#64 then none
    else if value = expected then some (bitInWord expected, desired expected)
    else tryWord value retries value

/-- One pass over the words at the given positions. -/
def sweep (s : AxiomSelector c) (start : ℕ) : List ℕ → Option (ℕ × AxiomSelector c)
  | [] => none
  | i :: is =>
    let k := wordIdx c start i
    match tryWord (s.words k) kMaxRetriesPerWord (s.words k) with
    | some (b, value) => some (k * kBitsPerWord + b, ⟨Function.update s.words k value⟩)
    | none => sweep s start is

/-- `none` is `kNoSlot`. The second pass repeats the first one. -/
def acquire (s : AxiomSelector c) (mixThreadId : ℕ) : Option ℕ × AxiomSelector c :=
  let start := threadStartWord c mixThreadId
  match s.sweep start (List.range c.kWords) with
  | some (slot, s') => (some slot, s')
  | none => match s.sweep start (List.range c.kWords) with
    | some (slot, s') => (some slot, s')
    | none => (none, s)

def release (s : AxiomSelector c) (slot : ℕ) : AxiomSelector c :=
  if slot ≥ c.slots then s
  else
    let k := slot / kBitsPerWord
    ⟨Function.update s.words k (s.words k ||| BitVec.twoPow 64 (slot % kBitsPerWord))⟩

def isOccupied (s : AxiomSelector c) (slot : ℕ) : Bool :=
  if slot ≥ c.slots then false
  else s.words (slot / kBitsPerWord) &&& BitVec.twoPow 64 (slot % kBitsPerWord) == 0#64

def freeCount (s : AxiomSelector c) : ℕ :=
  ∑ i ∈ Finset.range c.kWords, (s.words i).cpop.toNat

/-- The slots whose bit is one. -/
def free (s : AxiomSelector c) : Finset ℕ := members s.words c.kWords

theorem lt_slots_of_mem_free {s : AxiomSelector c} {slot : ℕ} (h : slot ∈ s.free) : slot < c.slots :=
  c.kWords_mul ▸ (mem_members.mp h).1

theorem free_subset (s : AxiomSelector c) : s.free ⊆ Finset.range c.slots :=
  fun _ h => Finset.mem_range.mpr (lt_slots_of_mem_free h)

@[simp] theorem free_new : (new : AxiomSelector c).free = Finset.range c.slots := by
  rw [free, new, members_allOnes, c.kWords_mul]

theorem wordIdx_lt (start i : ℕ) : wordIdx c start i < c.kWords := Nat.mod_lt _ c.kWords_pos

/-- A circular sweep visits every word. -/
theorem exists_wordIdx (start : ℕ) {k : ℕ} (hk : k < c.kWords) :
    ∃ i < c.kWords, wordIdx c start i = k := by
  have hp := c.kWords_pos
  have hs := Nat.mod_lt start hp
  by_cases h : start % c.kWords ≤ k
  · refine ⟨k - start % c.kWords, by omega, ?_⟩
    rw [wordIdx, Nat.add_mod, Nat.mod_eq_of_lt (show k - start % c.kWords < c.kWords by omega),
      Nat.add_sub_cancel' h, Nat.mod_eq_of_lt hk]
  · refine ⟨k + c.kWords - start % c.kWords, by omega, ?_⟩
    rw [wordIdx, Nat.add_mod,
      Nat.mod_eq_of_lt (show k + c.kWords - start % c.kWords < c.kWords by omega),
      Nat.add_sub_cancel' (by omega), Nat.add_mod_right, Nat.mod_eq_of_lt hk]

theorem bitInWord_mem_ones {x : BitVec 64} (h : x ≠ 0#64) : bitInWord x ∈ ones x := ctz_mem_ones h

/-- Storing `desired` takes exactly the chosen slot out of the free set. -/
theorem members_desired (words : ℕ → BitVec 64) {n k : ℕ} (hx : words k ≠ 0#64) :
    members (Function.update words k (desired (words k))) n =
      (members words n).erase (k * kBitsPerWord + bitInWord (words k)) := by
  have hb := lt_of_mem_ones (bitInWord_mem_ones hx)
  have h := members_clear words n (k * 64 + bitInWord (words k))
  rw [index_div hb, index_mod hb] at h
  exact h

theorem tryWord_self (x : BitVec 64) :
    tryWord x kMaxRetriesPerWord x = if x = 0#64 then none else some (bitInWord x, desired x) := by
  simp [kMaxRetriesPerWord, tryWord]

theorem sweep_cons (s : AxiomSelector c) (start i : ℕ) (is : List ℕ) :
    s.sweep start (i :: is) =
      if s.words (wordIdx c start i) = 0#64 then s.sweep start is
      else some (wordIdx c start i * kBitsPerWord + bitInWord (s.words (wordIdx c start i)),
        ⟨Function.update s.words (wordIdx c start i) (desired (s.words (wordIdx c start i)))⟩) := by
  simp only [sweep, tryWord_self]
  split_ifs <;> rfl

theorem sweep_some {s s' : AxiomSelector c} {start slot : ℕ} {is : List ℕ}
    (h : s.sweep start is = some (slot, s')) : slot ∈ s.free ∧ s'.free = s.free.erase slot := by
  induction is with
  | nil => simp [sweep] at h
  | cons i is ih =>
    rw [sweep_cons] at h
    split_ifs at h with hx
    · exact ih h
    · cases h
      exact ⟨index_mem_members (wordIdx_lt start i) (bitInWord_mem_ones hx), members_desired s.words hx⟩

theorem sweep_none {s : AxiomSelector c} {start : ℕ} {is : List ℕ} :
    s.sweep start is = none ↔ ∀ i ∈ is, s.words (wordIdx c start i) = 0#64 := by
  induction is with
  | nil => simp [sweep]
  | cons i is ih =>
    rw [sweep_cons, List.forall_mem_cons]
    by_cases hx : s.words (wordIdx c start i) = 0#64 <;> simp [hx, ih]

theorem free_eq_empty {s : AxiomSelector c} : s.free = ∅ ↔ ∀ k < c.kWords, s.words k = 0#64 :=
  members_eq_empty

theorem sweep_range_none {s : AxiomSelector c} {start : ℕ} :
    s.sweep start (List.range c.kWords) = none ↔ s.free = ∅ := by
  rw [sweep_none, free_eq_empty]
  constructor
  · intro h k hk
    obtain ⟨i, hi, rfl⟩ := exists_wordIdx start hk
    exact h i (List.mem_range.mpr hi)
  · intro h i _
    exact h _ (wordIdx_lt start i)

/-- A successful acquire returns a free slot and takes only that slot. -/
theorem acquire_some {s s' : AxiomSelector c} {t slot : ℕ} (h : s.acquire t = (some slot, s')) :
    slot ∈ s.free ∧ s'.free = s.free.erase slot := by
  simp only [acquire] at h
  cases hs : s.sweep (threadStartWord c t) (List.range c.kWords) with
  | none => simp [hs] at h
  | some r =>
    obtain ⟨x, s₁⟩ := r
    simp only [hs, Prod.mk.injEq, Option.some.injEq] at h
    obtain ⟨rfl, rfl⟩ := h
    exact sweep_some hs

theorem acquire_none {s s' : AxiomSelector c} {t : ℕ} (h : s.acquire t = (none, s')) :
    s.free = ∅ ∧ s' = s := by
  simp only [acquire] at h
  cases hs : s.sweep (threadStartWord c t) (List.range c.kWords) with
  | none => exact ⟨sweep_range_none.mp hs, by simpa [hs] using h.symm⟩
  | some r => simp [hs] at h

theorem free_release (s : AxiomSelector c) {slot : ℕ} (h : slot < c.slots) :
    (s.release slot).free = insert slot s.free := by
  rw [release, if_neg (Nat.not_le.mpr h)]
  exact members_set (c.kWords_mul.symm ▸ h)

theorem isOccupied_iff {s : AxiomSelector c} {slot : ℕ} :
    s.isOccupied slot = true ↔ slot < c.slots ∧ slot ∉ s.free := by
  by_cases h : slot < c.slots
  · have hb : slot % kBitsPerWord < 64 := Nat.mod_lt _ (by decide)
    have hk : slot < c.kWords * 64 := c.kWords_mul.symm ▸ h
    rw [isOccupied, if_neg (Nat.not_le.mpr h), beq_iff_eq, and_twoPow_eq_zero hb]
    simp only [h, true_and, free, mem_members, hk]
    rfl
  · simp [isOccupied, Nat.not_lt.mp h, h]

theorem freeCount_eq_card (s : AxiomSelector c) : s.freeCount = s.free.card := sum_cpop_eq_card _ _

end AxiomSelector

end Qtx
