import Qtx.AxiomSelectorThreads

/-!
# Mutual exclusion and conservation of slots

No slot is owned twice, and a slot is either free, in the hands of a call or held by a
thread.
-/
namespace Qtx.AxiomSelectorThreads
open WordBits AxiomSelector TransitionSystems

variable {c : SlotCount} {τ : Type*} [DecidableEq τ]

/-- What one step of thread `t` does to the bitmap and to the owners: a release frees
exactly its own slot, any other step frees nothing and takes at most one free slot for
`t`, and no step touches what another thread owns. -/
structure Transfer (s s' : State c τ) (t : τ) : Prop where
  others : ∀ t' ≠ t, ∀ slot, Owns s' t' slot ↔ Owns s t' slot
  release : ∀ slot, s.pc t = .releasing slot →
    slot ∉ s.selector.free ∧ s'.selector.free = insert slot s.selector.free ∧
      ∀ slot', Owns s' t slot' ↔ slot' ≠ slot ∧ Owns s t slot'
  acquire : (∀ slot, s.pc t ≠ .releasing slot) →
    (s'.selector.free = s.selector.free ∧ ∀ slot, Owns s' t slot ↔ Owns s t slot) ∨
      ∃ slot ∈ s.selector.free, s'.selector.free = s.selector.free.erase slot ∧
        s'.pc t = .returning (some slot) ∧ ∀ slot', Owns s' t slot' ↔ slot' = slot ∨ Owns s t slot'

omit [DecidableEq τ] in
private theorem transfer_of_stutter {s s' : State c τ} {owner : ℕ → Option τ} {t : τ}
    (h : Represents s owner) (h' : Represents s' owner) (hpc : ∀ slot, s.pc t ≠ .releasing slot) :
    Transfer s s' t where
  others t' _ slot := (h'.owns t' slot).trans (h.owns t' slot).symm
  release slot hr := (hpc slot hr).elim
  acquire _ := by
    refine Or.inl ⟨?_, fun slot => (h'.owns t slot).trans (h.owns t slot).symm⟩
    ext slot
    rw [h'.free, h.free]

omit [DecidableEq τ] in
private theorem transfer_of_take {s s' : State c τ} {owner : ℕ → Option τ} {t : τ} {slot : ℕ}
    (h : Represents s owner) (h' : Represents s' (Function.update owner slot (some t)))
    (hfree : slot ∈ s.selector.free) (hpc : ∀ slot, s.pc t ≠ .releasing slot)
    (hpc' : s'.pc t = .returning (some slot)) : Transfer s s' t where
  others t' ht slot' := by
    rw [h'.owns, h.owns]
    by_cases hs : slot' = slot
    · subst hs
      simp [((h.free slot').mp hfree).2, Ne.symm ht]
    · rw [Function.update_of_ne hs]
  release slot hr := (hpc slot hr).elim
  acquire _ := by
    refine Or.inr ⟨slot, hfree, ?_, hpc', ?_⟩
    · ext slot'
      rw [h'.free, Finset.mem_erase, h.free]
      by_cases hs : slot' = slot
      · subst hs; simp
      · simp [hs]
    · intro slot'
      rw [h'.owns, h.owns]
      by_cases hs : slot' = slot
      · subst hs; simp
      · simp [hs]

omit [DecidableEq τ] in
private theorem transfer_of_put {s s' : State c τ} {owner : ℕ → Option τ} {t : τ} {slot : ℕ}
    (h : Represents s owner) (h' : Represents s' (Function.update owner slot none))
    (hown : owner slot = some t) (hpc : s.pc t = .releasing slot) : Transfer s s' t where
  others t' ht slot' := by
    rw [h'.owns, h.owns]
    by_cases hs : slot' = slot
    · subst hs
      simp [hown, Ne.symm ht]
    · rw [Function.update_of_ne hs]
  release slot₁ hr := by
    obtain rfl : slot = slot₁ := by simpa [hpc] using hr
    refine ⟨fun hf => ?_, ?_, ?_⟩
    · have hn := ((h.free slot).mp hf).2
      rw [hown] at hn
      cases hn
    · ext slot'
      rw [h'.free, Finset.mem_insert, h.free]
      by_cases hs : slot' = slot
      · subst hs; simp [h.bounded _ t hown]
      · simp [hs]
    · intro slot'
      rw [h'.owns, h.owns]
      by_cases hs : slot' = slot
      · subst hs; simp
      · simp [hs]
  acquire hno := (hno slot hpc).elim

theorem step_transfer {start : τ → ℕ} {s s' : State c τ} {owner : ℕ → Option τ} {l : Label τ}
    (h : Represents s owner) (hs : step start s l = some s') : Transfer s s' l.thread := by
  obtain ⟨owner', hpool, h'⟩ := step_simulates h hs
  cases hpool with
  | stutter quiet => exact transfer_of_stutter h h' quiet
  | take slot lt free quiet won => exact transfer_of_take h h' ((h.free slot).mpr ⟨lt, free⟩) quiet won
  | put slot mine called => exact transfer_of_put h h' mine called

omit [DecidableEq τ] in
theorem card_free_add_ncard_held {s : State c τ} {owner : ℕ → Option τ} (h : Represents s owner)
    (quiescent : ∀ t, s.pc t = .idle) :
    s.selector.free.card + {slot | ∃ t, slot ∈ s.held t}.ncard = c.slots := by
  have heq : {slot | ∃ t, slot ∈ s.held t} = (↑(Finset.range c.slots \ s.selector.free) : Set ℕ) := by
    ext slot
    simp only [Set.mem_ofPred_eq, Finset.coe_sdiff, Set.mem_sdiff, Finset.mem_coe, Finset.mem_range,
      h.free, not_and]
    constructor
    · rintro ⟨t, ht⟩
      have ho := (h.owns t slot).mp (Or.inl ht)
      exact ⟨h.bounded slot t ho, fun _ hn => by rw [ho] at hn; cases hn⟩
    · rintro ⟨hlt, hne⟩
      obtain ⟨t, ht⟩ := Option.ne_none_iff_exists'.mp (hne hlt)
      refine ⟨t, ((h.owns t slot).mpr ht).resolve_right ?_⟩
      simp [quiescent t]
  rw [heq, Set.ncard_coe_finset, Finset.card_sdiff_of_subset s.selector.free_subset, Finset.card_range]
  have hle := Finset.card_le_card s.selector.free_subset
  rw [Finset.card_range] at hle
  omega

/-- Mutual exclusion and conservation of the selector, under every interleaving. -/
theorem exclusive_and_conserved (c : SlotCount) (start : τ → ℕ) {s : State c τ}
    (h : (system c start).Reachable s) :
    (∀ t t' slot, Owns s t slot → Owns s t' slot → t = t') ∧
      (∀ t slot, s.pc t = .returning (some slot) → slot < c.slots) ∧
      (∀ l s', step start s l = some s' → Transfer s s' l.thread) ∧
      ((∀ t, s.pc t = .idle) →
        s.selector.freeCount + {slot | ∃ t, slot ∈ s.held t}.ncard = c.slots) := by
  obtain ⟨owner, hr⟩ := reachable_represents h
  refine ⟨fun t t' slot => hr.unique, ?_, fun l s' => step_transfer hr, ?_⟩
  · intro t slot hpc
    exact hr.bounded slot t ((hr.owns t slot).mp (Or.inr hpc))
  · intro quiescent
    rw [freeCount_eq_card]
    exact card_free_add_ncard_held hr quiescent

abbrev twoThreads : System (State oneWord Bool) (Label Bool) := system oneWord (fun _ => 0)

/-- One whole `acquire` that no other thread interrupts. -/
def wholeAcquire (t : Bool) : List (Label Bool) :=
  [.callAcquire t, .act t false, .act t false, .act t false]

/-- Both threads acquire, and the first one gives its slot back. -/
def bothAcquire : List (Label Bool) :=
  wholeAcquire false ++ wholeAcquire true ++ [.callRelease false 0, .act false false]

def bothRun : Execution twoThreads bothAcquire.length :=
  .ofLabels twoThreads bothAcquire (.callAcquire true) (by decide +kernel)

theorem bothRun_exclusive_and_conserved :
    (bothRun.state 10).held true = {1} ∧
      (∀ t t' slot, Owns (bothRun.state 10) t slot → Owns (bothRun.state 10) t' slot → t = t') ∧
      (bothRun.state 10).selector.freeCount + {slot | ∃ t, slot ∈ (bothRun.state 10).held t}.ncard = 64 := by
  have h := exclusive_and_conserved oneWord (fun _ : Bool => 0) (bothRun.reachable (k := 10) (by decide +kernel))
  exact ⟨by decide +kernel, h.1, h.2.2.2 (by decide +kernel)⟩

/-! ## A call that runs alone

Uninterrupted and without spurious failures, the atomic steps of a call compute the
sequential `acquire`. -/

@[simp] theorem goto_goto (s : State c τ) (t : τ) (pc pc' : Pc) : (s.goto t pc).goto t pc' = s.goto t pc' := by
  simp [State.goto]

private theorem solo_word (start : τ → ℕ) {s : State c τ} {t : τ} {pass i : ℕ} (hpc : s.pc t = .load pass i) :
    (system c start).Steps (fun _ l => l = .act t false) s
      (if s.selector.words (wordOf c (start t) i) = 0#64 then s.goto t (afterWord c pass i)
        else s.takeBit t (wordOf c (start t) i) (s.selector.words (wordOf c (start t) i))) := by
  have hload : step start s (.act t false) =
      some (s.goto t (scan c pass i (s.selector.words (wordOf c (start t) i)) 0)) := by
    simp only [step, act, hpc]
  by_cases hz : s.selector.words (wordOf c (start t) i) = 0#64
  · rw [if_pos hz]
    simp only [scan, hz, ↓reduceIte] at hload
    exact .snoc .refl rfl hload
  · rw [if_neg hz]
    simp only [scan, hz, ↓reduceIte] at hload
    refine .snoc (.snoc .refl rfl hload) rfl ?_
    simp [system, step, act, State.takeBit]

private theorem solo_sweep (start : τ → ℕ) {t : τ} {pass : ℕ} (m : ℕ) :
    ∀ (s : State c τ) (i : ℕ), s.pc t = .load pass i → i + (m + 1) = c.kWords →
      (system c start).Steps (fun _ l => l = .act t false) s
        (match s.selector.sweep (threadStartWord c (start t)) (List.range' i (m + 1)) with
          | some (slot, selector) => { s.goto t (.returning (some slot)) with selector := selector }
          | none => s.goto t (if pass + 1 < 2 then .load (pass + 1) 0 else .returning none)) := by
  induction m with
  | zero =>
    intro s i hpc hi
    have h := solo_word start hpc
    rw [List.range'_succ, List.range'_zero, sweep_cons]
    by_cases hz : s.selector.words (wordIdx c (threadStartWord c (start t)) i) = 0#64
    · simpa [hz, wordOf, afterWord, sweep, show ¬ i + 1 < c.kWords by omega] using h
    · simpa [hz, wordOf, State.takeBit] using h
  | succ m ih =>
    intro s i hpc hi
    have h := solo_word start hpc
    rw [List.range'_succ, sweep_cons]
    by_cases hz : s.selector.words (wordIdx c (threadStartWord c (start t)) i) = 0#64
    · have hnext : afterWord c pass i = .load pass (i + 1) := by
        simp [afterWord, show i + 1 < c.kWords by omega]
      simp only [wordOf, hz, ↓reduceIte, hnext] at h ⊢
      simpa using h.trans (ih (s.goto t (.load pass (i + 1))) (i + 1) (goto_pc_self s t _) (by omega))
    · simpa [hz, wordOf, State.takeBit] using h

/-- A whole call without interference returns what `acquire` computes. -/
theorem acquire_solo {start : τ → ℕ} {s : State c τ} {t : τ} (hpc : s.pc t = .load 0 0) :
    (system c start).Steps (fun _ l => l = .act t false) s
      { s.goto t (.returning (s.selector.acquire (start t)).1) with
        selector := (s.selector.acquire (start t)).2 } := by
  obtain ⟨m, hm⟩ := Nat.exists_eq_succ_of_ne_zero c.kWords_pos.ne'
  have first := solo_sweep start m s 0 hpc (by omega)
  have second := solo_sweep start m (s.goto t (.load 1 0)) 0 (goto_pc_self s t _) (by omega)
  rw [← Nat.succ_eq_add_one, ← hm, ← List.range_eq_range'] at first second
  simp only [acquire]
  cases hs : s.selector.sweep (threadStartWord c (start t)) (List.range c.kWords) with
  | some r => simpa [hs] using first
  | none =>
    simp only [hs, goto_selector] at first second ⊢
    rw [goto_goto] at second
    exact first.trans second

end Qtx.AxiomSelectorThreads
