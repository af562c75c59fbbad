import Mathlib.Data.Finset.Card
import Mathlib.Logic.Function.Basic

/-!
# Pools of recycled entries

Entries live in a table of fixed size. `acquire` takes the first entry that is not in
use and resets it, `release` retires an entry and gives it back.
-/
namespace Qtx.FirstFitPools

variable {α : Type*} {n : ℕ}

structure Pool (α : Type*) (n : ℕ) where
  storage : ℕ → α
  inUse : ℕ → Bool

namespace Pool

variable (p : Pool α n)

def acquire (fresh : α) : Option ℕ × Pool α n :=
  match (List.range n).find? (fun i => !p.inUse i) with
  | none => (none, p)
  | some i => (some i, ⟨Function.update p.storage i fresh, Function.update p.inUse i true⟩)

/-- An index outside the table is ignored. -/
def release (retire : α → α) (i : ℕ) : Pool α n :=
  if i ≥ n then p
  else ⟨Function.update p.storage i (retire (p.storage i)), Function.update p.inUse i false⟩

/-- The owner of an entry changes it. -/
def modify (i : ℕ) (f : α → α) : Pool α n := { p with storage := Function.update p.storage i (f (p.storage i)) }

/-- The entries in use. -/
def used : Finset ℕ := (Finset.range n).filter (fun i => p.inUse i = true)

variable {p} {i j : ℕ} {fresh : α} {retire f : α → α} {q : Pool α n}

theorem mem_used : i ∈ p.used ↔ i < n ∧ p.inUse i = true := by
  rw [used, Finset.mem_filter, Finset.mem_range]

theorem acquire_none (h : p.acquire fresh = (none, q)) : q = p ∧ p.used = Finset.range n := by
  unfold acquire at h
  cases hf : (List.range n).find? (fun i => !p.inUse i) with
  | none =>
    rw [hf] at h
    refine ⟨(Prod.mk.inj h).2.symm, ?_⟩
    ext i
    rw [mem_used, Finset.mem_range]
    refine and_iff_left_of_imp (fun hi => ?_)
    have hn := List.find?_eq_none.mp hf i (List.mem_range.mpr hi)
    simpa using hn
  | some i =>
    rw [hf] at h
    cases (Prod.mk.inj h).1

theorem acquire_some (h : p.acquire fresh = (some i, q)) :
    i < n ∧ p.inUse i = false ∧
      q = ⟨Function.update p.storage i fresh, Function.update p.inUse i true⟩ := by
  unfold acquire at h
  cases hf : (List.range n).find? (fun i => !p.inUse i) with
  | none =>
    rw [hf] at h
    cases (Prod.mk.inj h).1
  | some k =>
    rw [hf] at h
    obtain ⟨hi, hq⟩ := Prod.mk.inj h
    cases hi
    exact ⟨List.mem_range.mp (List.mem_of_find?_eq_some hf), by simpa using List.find?_some hf, hq.symm⟩

theorem release_of_lt (hi : i < n) : p.release retire i =
    ⟨Function.update p.storage i (retire (p.storage i)), Function.update p.inUse i false⟩ :=
  if_neg (Nat.not_le.mpr hi)

theorem storage_release_of_ne (h : j ≠ i) : (p.release retire i).storage j = p.storage j := by
  unfold release
  split_ifs
  · rfl
  · exact Function.update_of_ne h _ _

@[simp] theorem inUse_modify : (p.modify i f).inUse = p.inUse := rfl

@[simp] theorem storage_modify_self : (p.modify i f).storage i = f (p.storage i) := Function.update_self _ _ _

theorem storage_modify_of_ne (h : j ≠ i) : (p.modify i f).storage j = p.storage j := Function.update_of_ne h _ _

theorem used_take (hi : i < n) : (⟨p.storage, Function.update p.inUse i true⟩ : Pool α n).used =
    insert i p.used := by
  ext j
  rw [Finset.mem_insert, mem_used, mem_used]
  by_cases hj : j = i
  · simp [hj, hi]
  · simp [hj]

theorem used_release (hi : i < n) : (p.release retire i).used = p.used.erase i := by
  ext j
  rw [Finset.mem_erase, mem_used, mem_used, release_of_lt hi]
  by_cases hj : j = i
  · simp [hj]
  · simp [hj]

end Pool

end Qtx.FirstFitPools
