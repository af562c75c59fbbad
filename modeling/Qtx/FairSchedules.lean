import Qtx.TransitionSystems

/-!
# Fair schedules

A schedule names, for ever, the thread whose turn is next. A thread that cannot move lets its
turn pass. In a fair schedule the turn of every thread comes again and again, and what is shown
here is how a goal is then reached: in every other state one thread brings it nearer, and the
turns of the others either do so as well or leave it to that thread.
-/
namespace Qtx.TransitionSystems

universe u v

/-- Every thread has its turn again and again. -/
def Fair {ι : Type v} (sched : ℕ → ι) : Prop := ∀ l k, ∃ j, k ≤ j ∧ sched j = l

namespace System

variable {σ : Type u} {ι : Type v} (sys : System σ ι)

def turn (s : σ) (l : ι) : σ := (sys.step s l).getD s

/-- The states of the infinite run under a schedule. -/
def under (sched : ℕ → ι) : ℕ → σ
  | 0 => sys.init
  | k + 1 => sys.turn (under sched k) (sched k)

variable {sys} {sched : ℕ → ι}

theorem turn_of_some {s s' : σ} {l : ι} (h : sys.step s l = some s') : sys.turn s l = s' := by
  rw [turn, h, Option.getD_some]

theorem turn_preserves {P : σ → Prop} (step : ∀ s l s', P s → sys.step s l = some s' → P s') {s : σ} (l : ι)
    (h : P s) : P (sys.turn s l) := by
  cases hs : sys.step s l with
  | none => rwa [turn, hs, Option.getD_none]
  | some s' => exact turn_of_some hs ▸ step s l s' h hs

theorem under_invariant {P : σ → Prop} (start : P sys.init)
    (step : ∀ s l s', P s → sys.step s l = some s' → P s') (k : ℕ) : P (sys.under sched k) := by
  induction k with
  | zero => exact start
  | succ k ih => exact turn_preserves step (sched k) ih

/-- What the turns preserve from some instant on holds for ever after it. -/
theorem under_stable {P : σ → Prop} (step : ∀ s l, P s → P (sys.turn s l)) {k : ℕ} (h : P (sys.under sched k))
    {j : ℕ} (hkj : k ≤ j) : P (sys.under sched j) := by
  induction j, hkj using Nat.le_induction with
  | base => exact h
  | succ j _ ih => exact step _ _ ih

/-- A run from some instant on is the run of any system that takes the same steps from there. -/
theorem under_from {κ : Type*} {sys' : System σ κ} {sched' : ℕ → κ} {k : ℕ} (init : sys'.init = sys.under sched k)
    (agree : ∀ s j, sys'.step s (sched' j) = sys.step s (sched (k + j))) (j : ℕ) :
    sys'.under sched' j = sys.under sched (k + j) := by
  induction j with
  | zero => exact init
  | succ j ih =>
    rw [under, ih, turn, agree]
    rfl

section Progress

variable (Inv Goal : σ → Prop) (helpful : σ → ι) (measure : σ → ℕ)

/-- Until the measure drops or the goal is reached, the helpful thread stays the same. -/
theorem waits_for_helpful (inv : ∀ k, Inv (sys.under sched k))
    (keeps : ∀ s l, Inv s → ¬ Goal s → measure (sys.turn s l) < measure s ∨
      measure (sys.turn s l) = measure s ∧ helpful (sys.turn s l) = helpful s)
    (away : ∀ k, ¬ Goal (sys.under sched k)) {k j : ℕ} (hkj : k ≤ j) :
    (∃ i, k ≤ i ∧ measure (sys.under sched i) < measure (sys.under sched k)) ∨
    measure (sys.under sched j) = measure (sys.under sched k) ∧
      helpful (sys.under sched j) = helpful (sys.under sched k) := by
  induction j, hkj using Nat.le_induction with
  | base => exact .inr ⟨rfl, rfl⟩
  | succ j hkj ih =>
    rcases ih with hdrop | ⟨hm, hh⟩
    · exact .inl hdrop
    · rcases keeps _ (sched j) (inv j) (away j) with hlt | ⟨hm', hh'⟩
      · exact .inl ⟨j + 1, by omega, hm ▸ hlt⟩
      · exact .inr ⟨hm'.trans hm, hh'.trans hh⟩

/-- The rule of the helpful thread: if outside the goal every turn lowers the measure or changes neither it
nor who is helpful, and the turn of the helpful thread lowers it, a fair schedule reaches the goal. -/
theorem eventually_of_helpful (fair : Fair sched) (inv : ∀ k, Inv (sys.under sched k))
    (helps : ∀ s, Inv s → ¬ Goal s → measure (sys.turn s (helpful s)) < measure s)
    (keeps : ∀ s l, Inv s → ¬ Goal s → measure (sys.turn s l) < measure s ∨
      measure (sys.turn s l) = measure s ∧ helpful (sys.turn s l) = helpful s) :
    ∃ k, Goal (sys.under sched k) := by
  by_contra hnever
  have away : ∀ k, ¬ Goal (sys.under sched k) := fun k hk => hnever ⟨k, hk⟩
  -- there is no least value of the measure along the run
  have hdrop : ∀ k, ∃ i, measure (sys.under sched i) < measure (sys.under sched k) := by
    intro k
    obtain ⟨j, hkj, hj⟩ := fair (helpful (sys.under sched k)) k
    rcases waits_for_helpful Inv Goal helpful measure inv keeps away hkj with ⟨i, -, hi⟩ | ⟨hm, hh⟩
    · exact ⟨i, hi⟩
    · refine ⟨j + 1, hm ▸ ?_⟩
      rw [under, hj, ← hh]
      exact helps _ (inv j) (away j)
  have hall : ∀ m k, measure (sys.under sched k) ≠ m := by
    intro m
    induction m using Nat.strong_induction_on with
    | _ m ih =>
      rintro k rfl
      obtain ⟨i, hi⟩ := hdrop k
      exact ih _ hi i rfl
  exact hall _ 0 rfl

end Progress

end System

end Qtx.TransitionSystems
