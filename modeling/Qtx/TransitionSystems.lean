import Mathlib.Logic.Function.Basic
import Mathlib.Data.Nat.Init
import Mathlib.Order.Basic

/-!
# Guarded transition systems

A system has one initial state and a partial step function: `step s l = none`
means that the label `l` is not enabled in `s`. The same function is executed on
concrete label lists and reasoned about over all runs. Runs come in two forms:
`Steps` keeps only the end points, under a side condition on every step taken, and
`Execution` keeps every intermediate state, for properties about instants.
-/
namespace Qtx.TransitionSystems

universe u v

structure System (σ : Type u) (ι : Type v) where
  init : σ
  step : σ → ι → Option σ

namespace System

variable {σ : Type u} {ι : Type v} (sys : System σ ι)

/-- Execute a list of labels, failing at the first label that is not enabled. -/
def runFrom (s : σ) : List ι → Option σ
  | [] => some s
  | l :: ls => match sys.step s l with
    | some t => runFrom t ls
    | none => none

/-- `t` is reached from `s` by enabled steps that all satisfy `ok`. -/
inductive Steps (ok : σ → ι → Prop) (s : σ) : σ → Prop
  | refl : Steps ok s s
  | snoc {t u l} (past : Steps ok s t) (allowed : ok t l) (next : sys.step t l = some u) :
      Steps ok s u

def Reachable (s : σ) : Prop := sys.Steps (fun _ _ => True) sys.init s

variable {sys}

theorem Steps.preserves {ok : σ → ι → Prop} {P : σ → Prop} {s t : σ} (h : sys.Steps ok s t)
    (start : P s) (step : ∀ t l u, P t → ok t l → sys.step t l = some u → P u) : P t := by
  induction h with
  | refl => exact start
  | snoc past allowed next ih => exact step _ _ _ ih allowed next

theorem Steps.mono {ok ok' : σ → ι → Prop} {s t : σ} (h : sys.Steps ok s t)
    (weaken : ∀ t l, ok t l → ok' t l) : sys.Steps ok' s t := by
  induction h with
  | refl => exact .refl
  | snoc past allowed next ih => exact .snoc ih (weaken _ _ allowed) next

theorem Steps.trans {ok : σ → ι → Prop} {s t u : σ} (h : sys.Steps ok s t)
    (h' : sys.Steps ok t u) : sys.Steps ok s u := by
  induction h' with
  | refl => exact h
  | snoc past allowed next ih => exact .snoc ih allowed next

theorem Reachable.invariant {P : σ → Prop} {s : σ} (h : sys.Reachable s) (start : P sys.init)
    (step : ∀ t l u, P t → sys.step t l = some u → P u) : P s :=
  h.preserves start (fun t l u ht _ next => step t l u ht next)

theorem runFrom_append (s : σ) (ls ls' : List ι) :
    sys.runFrom s (ls ++ ls') = (sys.runFrom s ls).bind (fun t => sys.runFrom t ls') := by
  induction ls generalizing s with
  | nil => rfl
  | cons l ls ih =>
    simp only [List.cons_append, runFrom]
    cases sys.step s l with
    | none => rfl
    | some t => exact ih t

theorem steps_of_runFrom {s t : σ} {ls : List ι} (h : sys.runFrom s ls = some t) :
    sys.Steps (fun _ _ => True) s t := by
  induction ls generalizing s with
  | nil => cases h; exact .refl
  | cons l ls ih =>
    simp only [runFrom] at h
    cases hs : sys.step s l with
    | none => simp [hs] at h
    | some s' =>
      rw [hs] at h
      exact (Steps.snoc .refl trivial hs).trans (ih h)

theorem reachable_of_runFrom {t : σ} {ls : List ι} (h : sys.runFrom sys.init ls = some t) :
    sys.Reachable t :=
  steps_of_runFrom h

/-- The state after a list of labels from the start. -/
def after (sys : System σ ι) (ls : List ι) : σ := (sys.runFrom sys.init ls).getD sys.init

theorem reachable_after {ls : List ι} (h : (sys.runFrom sys.init ls).isSome) : sys.Reachable (sys.after ls) := by
  obtain ⟨t, ht⟩ := Option.isSome_iff_exists.mp h
  have hafter : sys.after ls = t := by rw [after, ht, Option.getD_some]
  exact hafter ▸ reachable_of_runFrom ht

/-- The same system with the steps that `ok` forbids disabled. -/
def restrict (sys : System σ ι) (ok : σ → ι → Prop) [∀ s l, Decidable (ok s l)] : System σ ι :=
  ⟨sys.init, fun s l => if ok s l then sys.step s l else none⟩

theorem steps_of_restrict {ok : σ → ι → Prop} [∀ s l, Decidable (ok s l)] {s t : σ}
    (h : (sys.restrict ok).Steps (fun _ _ => True) s t) : sys.Steps ok s t := by
  induction h with
  | refl => exact .refl
  | @snoc t u l past _ next ih =>
    simp only [restrict] at next
    split_ifs at next with hok
    exact .snoc ih hok next

end System

/-- `n` consecutive steps from the initial state, with every state on the way. -/
structure Execution {σ : Type u} {ι : Type v} (sys : System σ ι) (n : ℕ) where
  state : ℕ → σ
  label : ℕ → ι
  init : state 0 = sys.init
  step : ∀ k < n, sys.step (state k) (label k) = some (state (k + 1))

namespace Execution

variable {σ : Type u} {ι : Type v} {sys : System σ ι} {n : ℕ}

theorem invariant (e : Execution sys n) {P : σ → Prop} (start : P sys.init)
    (step : ∀ t l u, P t → sys.step t l = some u → P u) : ∀ k ≤ n, P (e.state k) := by
  intro k hk
  induction k with
  | zero => exact e.init ▸ start
  | succ k ih => exact step _ _ _ (ih (Nat.le_of_succ_le hk)) (e.step k hk)

theorem reachable (e : Execution sys n) {k : ℕ} (hk : k ≤ n) : sys.Reachable (e.state k) :=
  e.invariant (P := sys.Reachable) .refl (fun _ _ _ ht next => .snoc ht trivial next) k hk

/-- A property of instants propagates along the steps of an interval. -/
theorem along (e : Execution sys n) {P : ℕ → σ → Prop} {a b : ℕ} (hb : b ≤ n) (start : P a (e.state a))
    (step : ∀ k, a ≤ k → k < b → P k (e.state k) → sys.step (e.state k) (e.label k) = some (e.state (k + 1)) →
      P (k + 1) (e.state (k + 1))) {k : ℕ} (hak : a ≤ k) (hkb : k ≤ b) : P k (e.state k) := by
  induction k, hak using Nat.le_induction with
  | base => exact start
  | succ k hak ih => exact step k hak hkb (ih (Nat.le_of_succ_le hkb)) (e.step k (Nat.lt_of_lt_of_le hkb hb))

/-- The execution described by a list of labels that are enabled one after the other. -/
def ofLabels (sys : System σ ι) (ls : List ι) (last : ι) (h : (sys.runFrom sys.init ls).isSome) :
    Execution sys ls.length where
  state k := (sys.runFrom sys.init (ls.take k)).getD sys.init
  label k := ls.getD k last
  init := rfl
  step k hk := by
    have htake : ls.take (k + 1) = ls.take k ++ [ls[k]] := List.take_succ_eq_append_getElem hk
    have hpre : (sys.runFrom sys.init (ls.take (k + 1))).isSome := by
      rw [← List.take_append_drop (k + 1) ls, System.runFrom_append] at h
      exact Option.isSome_of_isSome_bind h
    have hget : ls.getD k last = ls[k] := by simp [List.getD, hk]
    rw [hget]
    rw [htake, System.runFrom_append] at hpre ⊢
    obtain ⟨s, hs⟩ := Option.isSome_iff_exists.mp (Option.isSome_of_isSome_bind hpre)
    rw [hs] at hpre ⊢
    simp only [Option.bind_some, System.runFrom, Option.getD_some] at hpre ⊢
    cases ht : sys.step s ls[k] with
    | none => simp [ht] at hpre
    | some t => rfl

end Execution

end Qtx.TransitionSystems
