import Qtx.AxiomSelectorExclusion

/-!
# When `acquire` reports exhaustion

A call that returns `kNoSlot` gave up on every word in both of its passes. On each
word it either observed no free bit, or it lost a compare-exchange race as often as
the retry budget allows, which is four times in the two passes together. The last
run below shows that four lost races are enough for a false report.
-/
namespace Qtx.AxiomSelectorExhaustion
open AxiomSelector AxiomSelectorThreads TransitionSystems

variable {c : SlotCount} {τ : Type*} [DecidableEq τ] {start : τ → ℕ} {n : ℕ}

/-- At this step the compare-exchange of `t` on word `k` finds a word that another
thread has changed since `t` loaded it. -/
def losesRace (start : τ → ℕ) (s : State c τ) (l : Label τ) (t : τ) (k : ℕ) : Bool :=
  match l, s.pc t with
  | .act t' _, .cas _ i expected _ =>
    t' = t && wordOf c (start t) i = k && s.selector.words k ≠ expected
  | _, _ => false

/-- The races that `t` loses on word `k` in the steps from `a` up to `b`. -/
def lostRaces (e : Execution (system c start) n) (t : τ) (k a b : ℕ) : ℕ :=
  ((Finset.Ico a b).filter (fun j => losesRace start (e.state j) (e.label j) t k)).card

/-- The call that `t` makes at step `a` is about to return `result` at instant `b`. -/
structure AcquireCall (e : Execution (system c start) n) (t : τ) (a b : ℕ) (result : Option ℕ) : Prop where
  called : e.label a = .callAcquire t
  order : a < b
  within : b ≤ n
  running : ∀ k, a < k → k ≤ b → (e.state k).pc t ≠ .idle
  returns : (e.state b).pc t = .returning result

/-- The facts that one evaluation of a run can check. -/
theorem AcquireCall.of_checks {e : Execution (system c start) n} {t : τ} {a b : ℕ} {result : Option ℕ}
    (h : e.label a = .callAcquire t ∧ (∀ k < b + 1, a < k → (e.state k).pc t ≠ .idle) ∧
      (e.state b).pc t = .returning result) (order : a < b) (within : b ≤ n) : AcquireCall e t a b result where
  called := h.1
  order := order
  within := within
  running k hak hkb := h.2.1 k (Nat.lt_succ_of_le hkb) hak
  returns := h.2.2

def NoSpurious (e : Execution (system c start) n) : Prop := ∀ k < n, ∀ t, e.label k ≠ .act t true

/-- A call that never saw the word at position `j` empty has lost `lost` races on it. -/
def Budget (c : SlotCount) (j lost : ℕ) : Pc → Prop
  | .load pass i => i < c.kWords ∧ pass < 2 ∧ lost = 2 * pass + if j < i then 2 else 0
  | .cas pass i _ r => i < c.kWords ∧ pass < 2 ∧ r < 2 ∧
      lost = 2 * pass + if j < i then 2 else if j = i then r else 0
  | .returning none => lost = 4
  | .returning (some _) => True
  | .idle | .releasing _ => False

theorem wordOf_injective {h i j : ℕ} (hi : i < c.kWords) (hj : j < c.kWords)
    (heq : wordOf c h i = wordOf c h j) : i = j := by
  have hm : i ≡ j [MOD c.kWords] := Nat.ModEq.add_left_cancel' (threadStartWord c h) heq
  rwa [Nat.ModEq, Nat.mod_eq_of_lt hi, Nat.mod_eq_of_lt hj] at hm

/-- A thread does not move while another one acts. -/
theorem step_pc_of_ne {s s' : State c τ} {l : Label τ} {t : τ} (hs : step start s l = some s')
    (ht : l.thread ≠ t) : s'.pc t = s.pc t := by
  have hne : t ≠ l.thread := Ne.symm ht
  cases l with
  | callAcquire t' =>
    simp only [step, Option.ite_none_right_eq_some, Option.some.injEq] at hs
    obtain ⟨_, rfl⟩ := hs
    exact goto_pc_of_ne s _ hne
  | callRelease t' slot =>
    simp only [step, Option.ite_none_right_eq_some, Option.some.injEq] at hs
    obtain ⟨_, rfl⟩ := hs
    exact goto_pc_of_ne s _ hne
  | act t' spurious =>
    simp only [step, act] at hs
    split at hs
    · cases hs
    · cases hs
      exact goto_pc_of_ne s _ hne
    · split_ifs at hs
      all_goals cases hs
      all_goals exact goto_pc_of_ne s _ hne
    all_goals cases hs
    all_goals exact goto_pc_of_ne s _ hne

theorem losesRace_of_ne {s : State c τ} {l : Label τ} {t : τ} (k : ℕ) (ht : l.thread ≠ t) :
    losesRace start s l t k = false := by
  cases l with
  | callAcquire _ => rfl
  | callRelease _ _ => rfl
  | act t' spurious =>
    have hne : t' ≠ t := ht
    cases h : s.pc t <;> simp [losesRace, h, hne]

theorem budget_afterWord {pass i j lost : ℕ} (hi : i < c.kWords) (hj : j < c.kWords) (hp : pass < 2)
    (h : lost = 2 * pass + if j ≤ i then 2 else 0) : Budget c j lost (afterWord c pass i) := by
  unfold afterWord
  split_ifs with hn hpass
  · exact ⟨hn, hp, by simpa only [Nat.lt_succ_iff] using h⟩
  · refine ⟨c.kWords_pos, hpass, ?_⟩
    rw [if_pos (by omega)] at h
    simp only [Nat.not_lt_zero, ↓reduceIte]
    omega
  · rw [if_pos (by omega)] at h
    change lost = 4
    omega

theorem budget_scan {pass i j lost r : ℕ} {x : BitVec 64} (hi : i < c.kWords) (hj : j < c.kWords) (hp : pass < 2)
    (hr : r < 2) (h : lost = 2 * pass + if j < i then 2 else if j = i then r else 0) (hne : j = i → x ≠ 0#64) :
    Budget c j lost (scan c pass i x r) := by
  unfold scan
  split_ifs with hz
  · have hij : j ≠ i := fun heq => hne heq hz
    exact budget_afterWord hi hj hp (by simpa only [Nat.le_iff_lt_or_eq, hij, or_false, if_false] using h)
  · exact ⟨hi, hp, hr, h⟩

theorem lostRaces_succ (e : Execution (system c start) n) (t : τ) (k : ℕ) {a b : ℕ} (hab : a ≤ b) :
    lostRaces e t k a (b + 1) =
      lostRaces e t k a b + if losesRace start (e.state b) (e.label b) t k then 1 else 0 := by
  rw [lostRaces, lostRaces, Nat.Ico_succ_right_eq_insert_Ico hab, Finset.filter_insert]
  split_ifs with h
  · rw [Finset.card_insert_of_notMem (by simp)]
  · rfl

/-- One step of the thread itself either finds the word at position `j` empty or
spends the retry budget exactly as `Budget` says. -/
theorem budget_act {s s' : State c τ} {t : τ} {j lost : ℕ} (hj : j < c.kWords)
    (hs : step start s (.act t false) = some s') (hb : Budget c j lost (s.pc t))
    (hne : s.selector.words (wordOf c (start t) j) ≠ 0#64) (hrun : s'.pc t ≠ .idle) :
    Budget c j (lost + if losesRace start s (.act t false) t (wordOf c (start t) j) then 1 else 0) (s'.pc t) := by
  simp only [step, act] at hs
  cases hpc : s.pc t with
  | idle => simp [hpc] at hs
  | releasing slot => simp [hpc, Budget] at hb
  | returning result =>
    cases result with
    | none =>
      simp only [hpc, Option.some.injEq] at hs
      subst hs
      simp at hrun
    | some slot =>
      simp only [hpc, Option.some.injEq] at hs
      subst hs
      simp [State.settle, State.goto] at hrun
  | load pass i =>
    simp only [hpc, Option.some.injEq] at hs
    subst hs
    rw [hpc] at hb
    obtain ⟨hi, hp, hlost⟩ := hb
    simp only [losesRace, hpc, Bool.false_eq_true, ↓reduceIte, Nat.add_zero, goto_pc_self]
    refine budget_scan hi hj hp (by decide) (by simpa using hlost) ?_
    rintro rfl
    exact hne
  | cas pass i x r =>
    rw [hpc] at hb
    obtain ⟨hi, hp, hr, hlost⟩ := hb
    simp only [hpc, and_true] at hs
    by_cases hwin : s.selector.words (wordOf c (start t) i) = x
    · simp only [hwin, ↓reduceIte, Option.some.injEq] at hs
      subst hs
      simp [State.takeBit, State.goto, Budget]
    -- a lost race counts for position `j` only when the call stands there
    have hcount : losesRace start s (.act t false) t (wordOf c (start t) j) = decide (j = i) := by
      simp only [losesRace, hpc]
      by_cases hij : j = i
      · subst hij
        simp [hwin]
      · have hw : wordOf c (start t) i ≠ wordOf c (start t) j :=
          fun h => hij (wordOf_injective hi hj h).symm
        simp [hij, hw]
    have hspent : lost + (if j = i then 1 else 0) = 2 * pass + if j < i then 2 else if j = i then r + 1 else 0 := by
      split_ifs at hlost ⊢ <;> omega
    simp only [hwin, ↓reduceIte] at hs
    rw [hcount]
    simp only [decide_eq_true_eq, hspent]
    split_ifs at hs with hlast
    · cases hs
      rw [goto_pc_self]
      have hr1 : r + 1 = 2 := by simp only [kMaxRetriesPerWord] at hlast; omega
      exact budget_afterWord hi hj hp (by rw [hr1]; split_ifs <;> omega)
    · cases hs
      rw [goto_pc_self]
      simp only [kMaxRetriesPerWord] at hlast
      refine budget_scan hi hj hp (by omega) rfl ?_
      rintro rfl
      exact hne

/-- Up to every instant of a call, the word was empty at some instant or the budget is exact. -/
theorem budget_along (e : Execution (system c start) n) (quiet : NoSpurious e) {t : τ} {a b : ℕ}
    {result : Option ℕ} (call : AcquireCall e t a b result) {j : ℕ} (hj : j < c.kWords) :
    ∀ k, a + 1 ≤ k → k ≤ b →
      (∃ m, a < m ∧ m ≤ k ∧ (e.state m).selector.words (wordOf c (start t) j) = 0#64) ∨
        Budget c j (lostRaces e t (wordOf c (start t) j) a k) ((e.state k).pc t) := by
  intro k hak hkb
  have han : a < n := Nat.lt_of_lt_of_le call.order call.within
  refine e.along (P := fun k s => (∃ m, a < m ∧ m ≤ k ∧
      (e.state m).selector.words (wordOf c (start t) j) = 0#64) ∨
        Budget c j (lostRaces e t (wordOf c (start t) j) a k) (s.pc t))
    call.within ?_ ?_ hak hkb
  · have hs := e.step a han
    rw [call.called] at hs
    simp only [system, step, Option.ite_none_right_eq_some, Option.some.injEq] at hs
    obtain ⟨_, hs⟩ := hs
    rw [lostRaces_succ e t _ (le_refl a), ← hs, goto_pc_self, call.called]
    exact Or.inr ⟨c.kWords_pos, by decide, by simp [lostRaces, losesRace]⟩
  · intro k hak hkb ih hs
    rcases ih with ⟨m, ham, hmk, hz⟩ | hb
    · exact Or.inl ⟨m, ham, Nat.le_succ_of_le hmk, hz⟩
    by_cases hz : (e.state k).selector.words (wordOf c (start t) j) = 0#64
    · exact Or.inl ⟨k, hak, Nat.le_succ k, hz⟩
    right
    rw [lostRaces_succ e t _ (Nat.le_of_succ_le hak)]
    by_cases ht : (e.label k).thread = t
    · subst ht
      have hrun := call.running (k + 1) (by omega) hkb
      cases hl : e.label k with
      | callAcquire t' =>
        simp only [hl, system, step, Option.ite_none_right_eq_some] at hs
        simp only [hl, Label.thread, hs.1, Budget] at hb
      | callRelease t' slot =>
        simp only [hl, system, step, Option.ite_none_right_eq_some] at hs
        simp only [hl, Label.thread, hs.1.1, Budget] at hb
      | act t' spurious =>
        have hsp : spurious = false := by
          cases spurious with
          | false => rfl
          | true => exact (quiet k (Nat.lt_of_lt_of_le hkb call.within) t' hl).elim
        subst hsp
        simp only [hl, Label.thread] at hb hz hrun ⊢
        exact budget_act hj (by simpa only [hl, system] using hs) hb hz hrun
    · rw [losesRace_of_ne _ ht, step_pc_of_ne hs ht]
      simpa using hb

/-- A call without spurious failures that returns `kNoSlot` saw each word empty at some
instant, or lost exactly four races on it. -/
theorem exhausted_or_four_races (e : Execution (system c start) n) (quiet : NoSpurious e) {t : τ} {a b : ℕ}
    (call : AcquireCall e t a b none) {k : ℕ} (hk : k < c.kWords) :
    (∃ m, a < m ∧ m ≤ b ∧ (e.state m).selector.words k = 0#64) ∨ lostRaces e t k a b = 4 := by
  obtain ⟨j, hj, rfl⟩ := exists_wordIdx (threadStartWord c (start t)) hk
  have h := budget_along e quiet call hj b call.order le_rfl
  rw [call.returns] at h
  exact h

/-- In every run, a call that loses fewer than four races on each word reports
exhaustion only if every word had no free bit at some instant of the call. -/
theorem kNoSlot_only_if_full (c : SlotCount) (start : τ → ℕ) (n : ℕ) (e : Execution (system c start) n)
    (quiet : NoSpurious e) (t : τ) (a b : ℕ) (call : AcquireCall e t a b none)
    (few : ∀ k < c.kWords, lostRaces e t k a b < 4) :
    ∀ k < c.kWords, ∃ m, a < m ∧ m ≤ b ∧ (e.state m).selector.words k = 0#64 := by
  intro k hk
  refine (exhausted_or_four_races e quiet call hk).resolve_right ?_
  have hlt := few k hk
  omega

/-- The rival fills the word; then thread `false` sweeps it twice in vain. -/
def fillThenAcquire : List (Label Bool) :=
  (List.replicate 64 (wholeAcquire true)).flatten ++ [.callAcquire false, .act false false, .act false false]

def fillRun : Execution twoThreads fillThenAcquire.length :=
  .ofLabels twoThreads fillThenAcquire (.callAcquire true) (by decide +kernel)

private theorem fillRun_call : AcquireCall fillRun false 256 259 none :=
  .of_checks (by decide +kernel) (by decide) (by decide +kernel)

theorem fillRun_kNoSlot_only_if_full :
    ∃ m, 256 < m ∧ m ≤ 259 ∧ (fillRun.state m).selector.words 0 = 0#64 :=
  kNoSlot_only_if_full oneWord _ _ fillRun (by unfold NoSpurious; decide +kernel) false 256 259 fillRun_call
    (by decide +kernel) 0 (by decide)

/-- The rival takes one slot between each load and compare-exchange of thread `false`. -/
def racedAcquire : List (Label Bool) :=
  [.callAcquire false, .act false false] ++ wholeAcquire true ++ [.act false false] ++ wholeAcquire true ++
    [.act false false, .act false false] ++ wholeAcquire true ++ [.act false false] ++ wholeAcquire true ++
    [.act false false]

def racedRun : Execution twoThreads racedAcquire.length :=
  .ofLabels twoThreads racedAcquire (.callAcquire true) (by decide +kernel)

/-- False exhaustion: the call loses four races and returns `kNoSlot`, although its
only word never has fewer than sixty free slots. -/
theorem racedRun_false_exhaustion :
    NoSpurious racedRun ∧ AcquireCall racedRun false 0 23 none ∧
      ∀ m ≤ 23, (racedRun.state m).selector.words 0 ≠ 0#64 ∧ 60 ≤ (racedRun.state m).selector.freeCount := by
  refine ⟨by unfold NoSpurious; decide +kernel, ?_, ?_⟩
  · exact .of_checks (by decide +kernel) (by decide) (by decide +kernel)
  · have h : ∀ m < 24, (racedRun.state m).selector.words 0 ≠ 0#64 ∧
        60 ≤ (racedRun.state m).selector.freeCount := by decide +kernel
    exact fun m hm => h m (by omega)

end Qtx.AxiomSelectorExhaustion
