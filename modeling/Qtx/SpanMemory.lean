import Mathlib.Data.List.Basic
import Mathlib.Data.Nat.Init

/-!
# Byte ranges of a flat memory

A span is a base address and a length. Reads and writes go through spans, and a
write never leaves its span, so that whatever lies outside is framed.
-/
namespace Qtx.SpanMemory

structure Span where
  base : ℕ
  length : ℕ
  deriving DecidableEq

namespace Span

instance : Membership ℕ Span := ⟨fun s a => s.base ≤ a ∧ a < s.base + s.length⟩

theorem mem_iff {s : Span} {a : ℕ} : a ∈ s ↔ s.base ≤ a ∧ a < s.base + s.length := Iff.rfl

instance (s : Span) (a : ℕ) : Decidable (a ∈ s) := decidable_of_iff _ mem_iff.symm

/-- `std::span{}`, the answer to every refused request. -/
def none : Span := ⟨0, 0⟩

def isEmpty (s : Span) : Bool := s.length = 0

/-- The first `n` elements, as in `std::span(v.data(), n)`. -/
def first (s : Span) (n : ℕ) : Span := ⟨s.base, n⟩

def Disjoint (s t : Span) : Prop := ∀ a ∈ s, a ∉ t

def Within (s t : Span) : Prop := ∀ a ∈ s, a ∈ t

@[simp] theorem isEmpty_none : none.isEmpty = true := rfl

theorem notMem_of_isEmpty {s : Span} (h : s.isEmpty = true) (a : ℕ) : a ∉ s := by
  rw [isEmpty, decide_eq_true_eq] at h
  rw [mem_iff, h]
  omega

theorem base_mem {s : Span} (h : s.isEmpty = false) : s.base ∈ s := by
  rw [isEmpty, decide_eq_false_iff_not] at h
  rw [mem_iff]
  omega

theorem Disjoint.mono {s s' t t' : Span} (h : s.Disjoint t) (hs : s'.Within s) (ht : t'.Within t) :
    s'.Disjoint t' :=
  fun a ha ha' => h a (hs a ha) (ht a ha')

theorem Within.refl (s : Span) : s.Within s := fun _ h => h

/-- Cells of one size at different positions do not overlap. -/
theorem disjoint_cells (base size : ℕ) {i j : ℕ} (h : i ≠ j) :
    Disjoint ⟨base + i * size, size⟩ ⟨base + j * size, size⟩ := by
  intro a ha hb
  simp only [mem_iff] at ha hb
  rcases Nat.lt_or_gt_of_ne h with hlt | hlt
  · have hm := Nat.mul_le_mul_right size (Nat.succ_le_of_lt hlt)
    rw [Nat.succ_mul] at hm
    omega
  · have hm := Nat.mul_le_mul_right size (Nat.succ_le_of_lt hlt)
    rw [Nat.succ_mul] at hm
    omega

theorem within_cells (base size : ℕ) {i n : ℕ} (h : i < n) :
    Within ⟨base + i * size, size⟩ ⟨base, n * size⟩ := by
  intro a ha
  simp only [mem_iff] at ha ⊢
  have hm := Nat.mul_le_mul_right size (Nat.succ_le_of_lt h)
  rw [Nat.succ_mul] at hm
  omega

end Span

variable {α : Type*}

/-- The elements of a span in address order. -/
def load (m : ℕ → α) (s : Span) : List α := (List.range s.length).map (fun i => m (s.base + i))

/-- Overwrite a span from its start; what does not fit in is dropped. -/
def store (m : ℕ → α) (s : Span) (data : List α) : ℕ → α :=
  fun a => if a ∈ s then data.getD (a - s.base) (m a) else m a

/-- `memset` over the whole span. -/
def fill (m : ℕ → α) (s : Span) (value : α) : ℕ → α := fun a => if a ∈ s then value else m a

/-- Assign one element of a span. -/
def assign (m : ℕ → α) (s : Span) (i : ℕ) (value : α) : ℕ → α :=
  fun a => if i < s.length ∧ a = s.base + i then value else m a

@[simp] theorem length_load (m : ℕ → α) (s : Span) : (load m s).length = s.length := by
  simp [load]

theorem load_congr {m m' : ℕ → α} {s : Span} (h : ∀ a ∈ s, m a = m' a) : load m s = load m' s := by
  apply List.map_congr_left
  intro i hi
  exact h _ ⟨Nat.le_add_right _ _, Nat.add_lt_add_left (List.mem_range.mp hi) _⟩

theorem store_of_notMem {m : ℕ → α} {s : Span} {a : ℕ} (data : List α) (h : a ∉ s) : store m s data a = m a :=
  if_neg h

theorem fill_of_mem {m : ℕ → α} {s : Span} {a : ℕ} {value : α} (h : a ∈ s) : fill m s value a = value :=
  if_pos h

theorem fill_of_notMem {m : ℕ → α} {s : Span} {a : ℕ} {value : α} (h : a ∉ s) : fill m s value a = m a :=
  if_neg h

theorem assign_of_notMem {m : ℕ → α} {s : Span} {a i : ℕ} {value : α} (h : a ∉ s) :
    assign m s i value a = m a := by
  rw [assign, if_neg]
  rintro ⟨hi, rfl⟩
  exact h ⟨Nat.le_add_right _ _, Nat.add_lt_add_left hi _⟩

/-- The start of a span reads as the start of what was stored. -/
theorem load_store_first (m : ℕ → α) {s : Span} {n : ℕ} {data pre : List α} (hpre : pre <+: data)
    (hlen : pre.length = n) (hn : n ≤ s.length) : load (store m s data) (s.first n) = pre := by
  obtain ⟨rest, rfl⟩ := hpre
  apply List.ext_getElem
  · rw [length_load, hlen]
    rfl
  · intro i h1 h2
    have hmem : s.base + i ∈ s :=
      ⟨Nat.le_add_right _ _, Nat.add_lt_add_left (Nat.lt_of_lt_of_le (hlen ▸ h2) hn) _⟩
    simp [load, store, Span.first, hmem, List.getElem_append_left h2, Nat.lt_add_right _ h2]

/-- What a span holds after a store: the data, as far as it fits in, before the old rest. -/
theorem load_store (m : ℕ → α) (s : Span) (data : List α) :
    load (store m s data) s = data.take s.length ++ (load m s).drop data.length := by
  apply List.ext_getElem
  · simp only [length_load, List.length_append, List.length_take, List.length_drop]
    omega
  · intro i hi _
    rw [length_load] at hi
    have hmem : s.base + i ∈ s := ⟨Nat.le_add_right _ _, Nat.add_lt_add_left hi _⟩
    by_cases hlt : i < data.length
    · rw [List.getElem_append_left (by rw [List.length_take]; omega), List.getElem_take]
      simp [load, store, hmem, hlt]
    · have hge : data.length ≤ i := Nat.not_lt.mp hlt
      rw [List.getElem_append_right (by rw [List.length_take]; omega), List.getElem_drop]
      have hindex : data.length + (i - (data.take s.length).length) = i := by
        rw [List.length_take]
        omega
      simp only [hindex]
      simp [load, store, hmem, hge]

theorem load_assign_self (m : ℕ → α) (s : Span) {j : ℕ} (value : α) (hj : j < s.length) :
    load (assign m s j value) s = (load m s).set j value := by
  apply List.ext_getElem
  · simp
  · intro i h1 h2
    rw [List.getElem_set]
    simp only [load, assign, List.getElem_map, List.getElem_range, hj, true_and, Nat.add_left_cancel_iff]
    split_ifs with h3 h4 h4
    · rfl
    · exact absurd h3.symm h4
    · exact absurd h4.symm h3
    · rfl

theorem load_assign_of_disjoint {m : ℕ → α} {s t : Span} {j : ℕ} {value : α} (h : s.Disjoint t) :
    load (assign m t j value) s = load m s :=
  load_congr (fun a ha => assign_of_notMem (h a ha))

theorem load_fill_self (m : ℕ → α) (s : Span) (value : α) :
    load (fill m s value) s = List.replicate s.length value := by
  apply List.ext_getElem
  · simp
  · intro i h1 h2
    have hmem : s.base + i ∈ s := ⟨Nat.le_add_right _ _, Nat.add_lt_add_left (by simpa using h2) _⟩
    simp [load, fill, hmem]

end Qtx.SpanMemory
