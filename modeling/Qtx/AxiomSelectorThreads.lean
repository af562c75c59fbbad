import Qtx.AxiomSelector
import Qtx.TransitionSystems
import Mathlib.Data.Set.Card

/-!
# The slot selector under every interleaving

Any number of threads run `acquire` and `release` on one selector. Each atomic
load, compare-exchange and fetch-or is one step of the acting thread; the thread's
copies (pass, sweep position, expected word, retries) are its program counter. A
weak compare-exchange may fail spuriously. The bitmap is shown to be a faithful
picture of who holds which slot, and the calls that report exhaustion are
explained by the races they lost.
-/
namespace Qtx.AxiomSelectorThreads
open WordBits AxiomSelector TransitionSystems

inductive Pc where
  | idle
  | load (pass i : ℕ)
  | cas (pass i : ℕ) (expected : BitVec 64) (retries : ℕ)
  | returning (result : Option ℕ)
  | releasing (slot : ℕ)
  deriving DecidableEq, Repr

/-- `held t` are the slots that `acquire` returned to `t` and `t` has not released. -/
structure State (c : SlotCount) (τ : Type*) where
  selector : AxiomSelector c
  pc : τ → Pc
  held : τ → Finset ℕ

inductive Label (τ : Type*) where
  | callAcquire (t : τ)
  | callRelease (t : τ) (slot : ℕ)
  | act (t : τ) (spurious : Bool)
  deriving DecidableEq

variable {c : SlotCount} {τ : Type*} [DecidableEq τ]

/-- The next word of the sweep, the next of the two passes, or `kNoSlot`. -/
def afterWord (c : SlotCount) (pass i : ℕ) : Pc :=
  if i + 1 < c.kWords then .load pass (i + 1)
  else if pass + 1 < 2 then .load (pass + 1) 0
  else .returning none

/-- The test of the inner `while`. -/
def scan (c : SlotCount) (pass i : ℕ) (expected : BitVec 64) (retries : ℕ) : Pc :=
  if expected = 0#64 then afterWord c pass i else .cas pass i expected retries

/-- The word that a thread with the given hash visits at position `i`. -/
def wordOf (c : SlotCount) (mixThreadId i : ℕ) : ℕ := wordIdx c (threadStartWord c mixThreadId) i

def State.goto (s : State c τ) (t : τ) (pc : Pc) : State c τ := { s with pc := Function.update s.pc t pc }

/-- The winning compare-exchange on word `k`. -/
def State.takeBit (s : State c τ) (t : τ) (k : ℕ) (expected : BitVec 64) : State c τ :=
  { s.goto t (.returning (some (k * kBitsPerWord + bitInWord expected))) with
    selector := ⟨Function.update s.selector.words k (desired expected)⟩ }

/-- The caller receives the slot. -/
def State.settle (s : State c τ) (t : τ) (slot : ℕ) : State c τ :=
  { s.goto t .idle with held := Function.update s.held t (insert slot (s.held t)) }

/-- The fetch-or of `release`. -/
def State.putBit (s : State c τ) (t : τ) (slot : ℕ) : State c τ :=
  { s.goto t .idle with
    selector := s.selector.release slot
    held := Function.update s.held t ((s.held t).erase slot) }

def act (start : τ → ℕ) (s : State c τ) (t : τ) (spurious : Bool) : Option (State c τ) :=
  match s.pc t with
  | .idle => none
  | .load pass i => some (s.goto t (scan c pass i (s.selector.words (wordOf c (start t) i)) 0))
  | .cas pass i expected retries =>
    let k := wordOf c (start t) i
    if s.selector.words k = expected ∧ spurious = false then
      some (s.takeBit t k expected)
    else if retries + 1 ≥ kMaxRetriesPerWord then some (s.goto t (afterWord c pass i))
    else some (s.goto t (scan c pass i (s.selector.words k) (retries + 1)))
  | .returning none => some (s.goto t .idle)
  | .returning (some slot) => some (s.settle t slot)
  | .releasing slot => some (s.putBit t slot)

/-- A thread calls `release` only for a slot it holds. -/
def step (start : τ → ℕ) (s : State c τ) : Label τ → Option (State c τ)
  | .callAcquire t => if s.pc t = .idle then some (s.goto t (.load 0 0)) else none
  | .callRelease t slot =>
    if s.pc t = .idle ∧ slot ∈ s.held t then some (s.goto t (.releasing slot)) else none
  | .act t spurious => act start s t spurious

def system (c : SlotCount) (start : τ → ℕ) : System (State c τ) (Label τ) where
  init := ⟨new, fun _ => .idle, fun _ => ∅⟩
  step := step start

/-! ## Who owns a slot

The abstract pool maps every slot to at most one owner. A call owns its slot from
the winning compare-exchange on, before it has returned. -/

def Owns (s : State c τ) (t : τ) (slot : ℕ) : Prop := slot ∈ s.held t ∨ s.pc t = .returning (some slot)

/-- The abstract pool `owner` is what the bitmap and the threads together represent. -/
structure Represents (s : State c τ) (owner : ℕ → Option τ) : Prop where
  owns : ∀ t slot, Owns s t slot ↔ owner slot = some t
  free : ∀ slot, slot ∈ s.selector.free ↔ slot < c.slots ∧ owner slot = none
  bounded : ∀ slot t, owner slot = some t → slot < c.slots
  releasing : ∀ t slot, s.pc t = .releasing slot → slot ∈ s.held t
  returning : ∀ t slot, s.pc t = .returning (some slot) → slot ∉ s.held t
  expected : ∀ t pass i x r, s.pc t = .cas pass i x r → x ≠ 0#64

/-- One step of the abstract pool by thread `t`, whose program counter moves from `pc`
to `pc'`: nothing, or exactly one slot changes hands. -/
inductive PoolStep (n : ℕ) (t : τ) (pc pc' : Pc) (owner : ℕ → Option τ) : (ℕ → Option τ) → Prop
  | stutter (quiet : ∀ slot, pc ≠ .releasing slot) : PoolStep n t pc pc' owner owner
  | take (slot : ℕ) (lt : slot < n) (free : owner slot = none) (quiet : ∀ slot, pc ≠ .releasing slot)
      (won : pc' = .returning (some slot)) : PoolStep n t pc pc' owner (Function.update owner slot (some t))
  | put (slot : ℕ) (mine : owner slot = some t) (called : pc = .releasing slot) :
      PoolStep n t pc pc' owner (Function.update owner slot none)

def Label.thread : Label τ → τ
  | .callAcquire t => t
  | .callRelease t _ => t
  | .act t _ => t

omit [DecidableEq τ] in
theorem Represents.unique {s : State c τ} {owner : ℕ → Option τ} (h : Represents s owner) {t t' : τ}
    {slot : ℕ} (ht : Owns s t slot) (ht' : Owns s t' slot) : t = t' :=
  Option.some.inj (((h.owns t slot).mp ht).symm.trans ((h.owns t' slot).mp ht'))

theorem represents_initial (start : τ → ℕ) : Represents (system c start).init (fun _ => none) where
  owns := by simp [system, Owns]
  free := by simp [system]
  bounded := by simp
  releasing := by simp [system]
  returning := by simp [system]
  expected := by simp [system]

/-- A program counter that carries no claim on a slot. -/
def Pc.Unclaiming (s : State c τ) (t : τ) : Pc → Prop
  | .idle | .load _ _ | .returning none => True
  | .cas _ _ x _ => x ≠ 0#64
  | .returning (some _) => False
  | .releasing slot => slot ∈ s.held t

omit [DecidableEq τ] in
theorem afterWord_unclaiming (s : State c τ) (t : τ) (pass i : ℕ) : (afterWord c pass i).Unclaiming s t := by
  unfold afterWord
  split_ifs <;> trivial

omit [DecidableEq τ] in
theorem scan_unclaiming (s : State c τ) (t : τ) (pass i : ℕ) (x : BitVec 64) (r : ℕ) :
    (scan c pass i x r).Unclaiming s t := by
  unfold scan
  split_ifs with h
  · exact afterWord_unclaiming s t pass i
  · exact h

@[simp] theorem goto_pc_self (s : State c τ) (t : τ) (pc : Pc) : (s.goto t pc).pc t = pc := by
  simp [State.goto]

theorem goto_pc_of_ne (s : State c τ) {t t' : τ} (pc : Pc) (h : t' ≠ t) : (s.goto t pc).pc t' = s.pc t' := by
  simp [State.goto, h]

@[simp] theorem goto_selector (s : State c τ) (t : τ) (pc : Pc) : (s.goto t pc).selector = s.selector := rfl

@[simp] theorem goto_held (s : State c τ) (t : τ) (pc : Pc) : (s.goto t pc).held = s.held := rfl

/-- A local move that neither gains nor drops a claim leaves the pool as it is. -/
theorem Represents.goto {s : State c τ} {owner : ℕ → Option τ} (h : Represents s owner) {t : τ} {pc : Pc}
    (before : ∀ slot, s.pc t ≠ .returning (some slot)) (after : pc.Unclaiming s t) :
    Represents (s.goto t pc) owner := by
  have owns : ∀ t' slot, Owns (s.goto t pc) t' slot ↔ Owns s t' slot := by
    intro t' slot
    by_cases ht : t' = t
    · subst ht
      have hpc : pc ≠ .returning (some slot) := by rintro rfl; exact after
      simp [Owns, before slot, hpc]
    · simp [Owns, goto_pc_of_ne s pc ht]
  refine ⟨fun t' slot => (owns t' slot).trans (h.owns t' slot), h.free, h.bounded, ?_, ?_, ?_⟩
  · intro t' slot ht
    by_cases he : t' = t
    · subst he
      obtain rfl : pc = .releasing slot := by simpa using ht
      exact after
    · exact h.releasing t' slot (by rwa [goto_pc_of_ne s pc he] at ht)
  · intro t' slot ht
    by_cases he : t' = t
    · subst he
      obtain rfl : pc = .returning (some slot) := by simpa using ht
      exact after.elim
    · exact h.returning t' slot (by rwa [goto_pc_of_ne s pc he] at ht)
  · intro t' pass i x r ht
    by_cases he : t' = t
    · subst he
      obtain rfl : pc = .cas pass i x r := by simpa using ht
      exact after
    · exact h.expected t' pass i x r (by rwa [goto_pc_of_ne s pc he] at ht)

/-- The winning compare-exchange moves one free slot to the acting thread. -/
theorem Represents.take {s : State c τ} {owner : ℕ → Option τ} (h : Represents s owner) {t : τ}
    {pass i r : ℕ} {x : BitVec 64} {k : ℕ} (hpc : s.pc t = .cas pass i x r) (hk : k < c.kWords)
    (hx : s.selector.words k = x) :
    k * kBitsPerWord + bitInWord x ∈ s.selector.free ∧
      Represents (s.takeBit t k x) (Function.update owner (k * kBitsPerWord + bitInWord x) (some t)) := by
  subst hx
  have hne := h.expected t pass i _ r hpc
  set slot := k * kBitsPerWord + bitInWord (s.selector.words k) with hslot
  have hfree : slot ∈ s.selector.free := index_mem_members hk (bitInWord_mem_ones hne)
  obtain ⟨hlt, hnone⟩ := (h.free slot).mp hfree
  have hheld : ∀ t', slot ∉ s.held t' := by
    intro t' hm
    have ho := (h.owns t' slot).mp (Or.inl hm)
    rw [hnone] at ho
    cases ho
  have owns : ∀ t' slot', slot' ≠ slot →
      (slot' ∈ s.held t' ∨ (Function.update s.pc t (.returning (some slot))) t' = .returning (some slot') ↔
        Owns s t' slot') := by
    intro t' slot' hs
    by_cases he : t' = t
    · subst he
      simp [Owns, hpc, Ne.symm hs]
    · simp [Owns, he]
  refine ⟨hfree, ⟨?_, ?_, ?_, ?_, ?_, ?_⟩⟩
  · intro t' slot'
    by_cases hs : slot' = slot
    · subst hs
      by_cases he : t' = t
      · subst he
        simp [Owns, State.takeBit, State.goto, ← hslot]
      · have hno : ¬ Owns s t' slot := fun ho => by
          have hs' := (h.owns t' slot).mp ho
          rw [hnone] at hs'
          cases hs'
        simpa [Owns, State.takeBit, State.goto, he, Ne.symm he] using hno
    · rw [Function.update_of_ne hs, ← h.owns t' slot']
      exact owns t' slot' hs
  · intro slot'
    have hm := members_desired s.selector.words (n := c.kWords) hne
    change slot' ∈ members (Function.update s.selector.words k _) _ ↔ _
    rw [hm, Finset.mem_erase, ← hslot]
    by_cases hs : slot' = slot
    · subst hs
      simp
    · rw [Function.update_of_ne hs]
      exact ⟨fun hf => (h.free slot').mp hf.2, fun hf => ⟨hs, (h.free slot').mpr hf⟩⟩
  · intro slot' t' ho
    by_cases hs : slot' = slot
    · exact hs ▸ hlt
    · rw [Function.update_of_ne hs] at ho
      exact h.bounded slot' t' ho
  · intro t' slot' hr
    by_cases he : t' = t
    · subst he; simp [State.takeBit, State.goto] at hr
    · exact h.releasing t' slot' (by simpa [State.takeBit, State.goto, he] using hr)
  · intro t' slot' hr
    by_cases he : t' = t
    · subst he
      obtain rfl : slot = slot' := by simpa [State.takeBit, State.goto] using hr
      exact hheld t'
    · exact h.returning t' slot' (by simpa [State.takeBit, State.goto, he] using hr)
  · intro t' pass' i' x' r' hr
    by_cases he : t' = t
    · subst he; simp [State.takeBit, State.goto] at hr
    · exact h.expected t' pass' i' x' r' (by simpa [State.takeBit, State.goto, he] using hr)

/-- Returning a slot keeps its owner: the claim moves from the call to `held`. -/
theorem Represents.settle {s : State c τ} {owner : ℕ → Option τ} (h : Represents s owner) {t : τ} {slot : ℕ}
    (hpc : s.pc t = .returning (some slot)) :
    Represents (s.settle t slot) owner := by
  refine ⟨?_, h.free, h.bounded, ?_, ?_, ?_⟩
  · intro t' slot'
    rw [← h.owns t' slot']
    by_cases he : t' = t
    · subst he
      simp [Owns, State.settle, State.goto, hpc, or_comm, eq_comm]
    · simp [Owns, State.settle, State.goto, he]
  · intro t' slot' hr
    by_cases he : t' = t
    · subst he; simp [State.settle, State.goto] at hr
    · simpa [State.settle, State.goto, he] using h.releasing t' slot'
        (by simpa [State.settle, State.goto, he] using hr)
  · intro t' slot' hr
    by_cases he : t' = t
    · subst he; simp [State.settle, State.goto] at hr
    · simpa [State.settle, State.goto, he] using h.returning t' slot'
        (by simpa [State.settle, State.goto, he] using hr)
  · intro t' pass i x r hr
    by_cases he : t' = t
    · subst he; simp [State.settle, State.goto] at hr
    · exact h.expected t' pass i x r (by simpa [State.settle, State.goto, he] using hr)

/-- The fetch-or gives back the released slot and no other. -/
theorem Represents.put {s : State c τ} {owner : ℕ → Option τ} (h : Represents s owner) {t : τ} {slot : ℕ}
    (hpc : s.pc t = .releasing slot) :
    owner slot = some t ∧ Represents (s.putBit t slot) (Function.update owner slot none) := by
  have hheld := h.releasing t slot hpc
  have hown := (h.owns t slot).mp (Or.inl hheld)
  have hlt := h.bounded slot t hown
  refine ⟨hown, ⟨?_, ?_, ?_, ?_, ?_, ?_⟩⟩
  · intro t' slot'
    by_cases hs : slot' = slot
    · subst hs
      by_cases he : t' = t
      · subst he
        simp [Owns, State.putBit, State.goto]
      · have hno : ¬ Owns s t' slot' := fun ho => he (h.unique ho (Or.inl hheld))
        simpa [Owns, State.putBit, State.goto, he] using hno
    · rw [Function.update_of_ne hs, ← h.owns t' slot']
      by_cases he : t' = t
      · subst he
        simp [Owns, State.putBit, State.goto, hpc, hs]
      · simp [Owns, State.putBit, State.goto, he]
  · intro slot'
    change slot' ∈ (s.selector.release slot).free ↔ _
    rw [free_release _ hlt, Finset.mem_insert]
    by_cases hs : slot' = slot
    · subst hs
      simp [hlt]
    · rw [Function.update_of_ne hs, ← h.free slot']
      exact ⟨fun hf => hf.resolve_left hs, Or.inr⟩
  · intro slot' t' ho
    by_cases hs : slot' = slot
    · subst hs; simp at ho
    · rw [Function.update_of_ne hs] at ho
      exact h.bounded slot' t' ho
  · intro t' slot' hr
    by_cases he : t' = t
    · subst he; simp [State.putBit, State.goto] at hr
    · simpa [State.putBit, State.goto, he] using h.releasing t' slot'
        (by simpa [State.putBit, State.goto, he] using hr)
  · intro t' slot' hr
    by_cases he : t' = t
    · subst he; simp [State.putBit, State.goto] at hr
    · simpa [State.putBit, State.goto, he] using h.returning t' slot'
        (by simpa [State.putBit, State.goto, he] using hr)
  · intro t' pass i x r hr
    by_cases he : t' = t
    · subst he; simp [State.putBit, State.goto] at hr
    · exact h.expected t' pass i x r (by simpa [State.putBit, State.goto, he] using hr)

/-- Every atomic step simulates one step of the abstract pool. -/
theorem step_simulates {start : τ → ℕ} {s s' : State c τ} {owner : ℕ → Option τ} {l : Label τ}
    (h : Represents s owner) (hs : step start s l = some s') :
    ∃ owner', PoolStep c.slots l.thread (s.pc l.thread) (s'.pc l.thread) owner owner' ∧
      Represents s' owner' := by
  cases l with
  | callAcquire t =>
    simp only [step, Option.ite_none_right_eq_some, Option.some.injEq] at hs
    obtain ⟨hpc, rfl⟩ := hs
    exact ⟨owner, .stutter (by simp [Label.thread, hpc]), h.goto (by simp [hpc]) trivial⟩
  | callRelease t slot =>
    simp only [step, Option.ite_none_right_eq_some, Option.some.injEq] at hs
    obtain ⟨⟨hpc, hm⟩, rfl⟩ := hs
    exact ⟨owner, .stutter (by simp [Label.thread, hpc]), h.goto (by simp [hpc]) hm⟩
  | act t spurious =>
    simp only [step, act] at hs
    cases hpc : s.pc t with
    | idle => simp [hpc] at hs
    | load pass i =>
      simp only [hpc, Option.some.injEq] at hs
      subst hs
      exact ⟨owner, .stutter (by simp [Label.thread, hpc]), h.goto (by simp [hpc]) (scan_unclaiming s t pass i _ 0)⟩
    | cas pass i x r =>
      simp only [hpc] at hs
      split_ifs at hs with hwin hr
      · cases hs
        obtain ⟨hfree, hrep⟩ := h.take hpc (wordIdx_lt _ i) hwin.1
        obtain ⟨hlt, hnone⟩ := (h.free _).mp hfree
        exact ⟨_, .take _ hlt hnone (by simp [Label.thread, hpc])
          (by simp [State.takeBit, State.goto, Label.thread, wordOf]), hrep⟩
      · cases hs
        exact ⟨owner, .stutter (by simp [Label.thread, hpc]),
          h.goto (by simp [hpc]) (afterWord_unclaiming s t pass i)⟩
      · cases hs
        exact ⟨owner, .stutter (by simp [Label.thread, hpc]),
          h.goto (by simp [hpc]) (scan_unclaiming s t pass i _ _)⟩
    | returning result =>
      cases result with
      | none =>
        simp only [hpc, Option.some.injEq] at hs
        subst hs
        exact ⟨owner, .stutter (by simp [Label.thread, hpc]), h.goto (by simp [hpc]) trivial⟩
      | some slot =>
        simp only [hpc, Option.some.injEq] at hs
        subst hs
        exact ⟨owner, .stutter (by simp [Label.thread, hpc]), h.settle hpc⟩
    | releasing slot =>
      simp only [hpc, Option.some.injEq] at hs
      subst hs
      obtain ⟨hown, hrep⟩ := h.put hpc
      exact ⟨_, .put slot hown hpc, hrep⟩

theorem reachable_represents {start : τ → ℕ} {s : State c τ} (h : (system c start).Reachable s) :
    ∃ owner, Represents s owner :=
  h.invariant (P := fun s => ∃ owner, Represents s owner) ⟨_, represents_initial start⟩
    (fun _ _ _ ⟨_, hr⟩ hs => (step_simulates hr hs).imp (fun _ => And.right))

end Qtx.AxiomSelectorThreads
