import Qtx.FractalArenaThreads

/-!
# Who has which slot of the arena

A slot goes round: free, claimed by a call of `allocate`, live under the handle that the
call returned, closing while a release wipes it, drained once its generation is bumped,
and free again. The phases are not in the memory of the program; the bitmap, the
generations, the bytes and the program counters together represent them.
-/
namespace Qtx.FractalArenaThreads
open SpanMemory TransitionSystems FractalArena GenerationCounters

inductive Kind
  | claimed
  | closing (id : GenID)
  | drained

inductive Phase (τ : Type*) where
  | free
  | live (t : τ) (id : GenID)
  | transit (t : τ) (kind : Kind)

namespace Phase

variable {τ : Type*}

def owner : Phase τ → Option τ
  | free => none
  | live t _ => some t
  | transit t _ => some t

/-- The handle under which a slot is open. -/
def handle : Phase τ → Option GenID
  | live _ id => some id
  | transit _ (.closing id) => some id
  | _ => none

end Phase

variable {g : Geometry} {τ : Type*}

/-- The handle that a call is about to release. -/
def Pc.closing : Pc → Option GenID
  | .loading (.release true) id | .testing (.release true) id | .wiping id _ | .retiring id => some id
  | _ => none

/-- The slot that `acquire` is about to return. -/
def won : AxiomSelectorThreads.Pc → Option (ℕ × Kind)
  | .returning (some slot) => some (slot, .claimed)
  | _ => none

/-- The slot that a thread has hold of in the middle of a call. -/
def inHand (s : State g τ) (t : τ) : Option (ℕ × Kind) :=
  match s.pc t with
  | .acquiring _ => won (s.selector.pc t)
  | .bumping slot _ => some (slot, .claimed)
  | .freeing id => some (id.id, .drained)
  | pc => pc.closing.map (fun id => (id.id, .closing id))

/-- The selector is inside a call exactly where the arena is. -/
def Linked : Pc → AxiomSelectorThreads.Pc → Prop
  | .acquiring _, pc => pc ≠ .idle ∧ ∀ slot, pc ≠ .releasing slot
  | .freeing id, pc => pc = .releasing id.id
  | _, pc => pc = .idle

/-- What a program counter says about the rest of the state. -/
def Consistent (s : State g τ) (t : τ) : Pc → Prop
  | .acquiring alignmentClass | .bumping _ alignmentClass => alignmentClass ≤ GenID.kMaxAlignment
  | .loading (.release false) id => ∃ n, (id, n) ∈ s.retired
  | .testing (.release false) _ => False
  | .wiping id i => i < g.slotSize ∧ ∀ j < i, s.die (id.id * g.slotSize + j) = 0#8
  | .retiring id => ∀ a ∈ g.slotSpan id.id, s.die a = 0#8
  | .answering (.release own) _ accepted => accepted = own
  | .answering _ id false => id ∉ s.held t
  | _ => True

/-- The slot and its generation as a cell. -/
def cell (s : State g τ) (phase : ℕ → Phase τ) (slot : ℕ) : Cell 16 := ⟨(phase slot).handle.isSome, s.versions slot⟩

/-- The handle is the current one of its slot. -/
def Current (s : State g τ) (id : GenID) : Prop := id.isNull = false ∧ (s.versions id.id).toNat = id.version

structure Represents (s : State g τ) (phase : ℕ → Phase τ) : Prop where
  pool : AxiomSelectorThreads.Represents s.selector (fun slot => (phase slot).owner)
  held : ∀ t id, id ∈ s.held t ↔ phase id.id = .live t id
  hand : ∀ t slot kind, inHand s t = some (slot, kind) ↔ phase slot = .transit t kind
  linked : ∀ t, Linked (s.pc t) (s.selector.pc t)
  consistent : ∀ t, Consistent s t (s.pc t)
  current : ∀ slot id, (phase slot).handle = some id → id.id = slot ∧ Current s id
  clean : ∀ slot < g.slotCount, (phase slot).handle = none → ∀ a ∈ g.slotSpan slot, s.die a = 0#8
  retired : ∀ id n, (id, n) ∈ s.retired → id.isNull = false ∧ n ≤ s.uses id.id ∧
    ∃ v : BitVec 16, v.toNat = id.version ∧ Reaches ⟨false, v + 1#16⟩ (s.uses id.id - n) (cell s phase id.id)

section Frames

variable {s s' : State g τ} {phase : ℕ → Phase τ} {t : τ} {id : GenID}

theorem inHand_of_closing (hid : (s.pc t).closing = some id) : inHand s t = some (id.id, .closing id) := by
  rw [inHand]
  cases hs : s.pc t with
  | idle => simp [Pc.closing, hs] at hid
  | acquiring _ => simp [Pc.closing, hs] at hid
  | bumping _ _ => simp [Pc.closing, hs] at hid
  | freeing _ => simp [Pc.closing, hs] at hid
  | answering _ _ _ => simp [Pc.closing, hs] at hid
  | loading _ _ => simp [← hs, hid]
  | testing _ _ => simp [← hs, hid]
  | wiping _ _ => simp [← hs, hid]
  | retiring _ => simp [← hs, hid]

theorem Represents.closing (h : Represents s phase) (hid : (s.pc t).closing = some id) :
    phase id.id = .transit t (.closing id) :=
  (h.hand t id.id _).mp (inHand_of_closing hid)

theorem Consistent.frame {pc : Pc} (h : Consistent s t pc) (retired : ∀ r ∈ s.retired, r ∈ s'.retired)
    (held : s'.held t = s.held t)
    (die : ∀ id, pc.closing = some id → ∀ a ∈ g.slotSpan id.id, s'.die a = s.die a) : Consistent s' t pc := by
  cases pc with
  | idle => trivial
  | acquiring _ => exact h
  | bumping _ _ => exact h
  | freeing _ => trivial
  | loading call id =>
    rcases call with _ | _ | own
    · trivial
    · trivial
    · cases own with
      | true => trivial
      | false => exact h.imp (fun n hn => retired _ hn)
  | testing call id =>
    rcases call with _ | _ | own
    · trivial
    · trivial
    · cases own with
      | true => trivial
      | false => exact h
  | wiping id i =>
    obtain ⟨hi, hzero⟩ := h
    refine ⟨hi, fun j hj => ?_⟩
    have hmem : id.id * g.slotSize + j ∈ g.slotSpan id.id :=
      ⟨Nat.le_add_right _ _, Nat.add_lt_add_left (Nat.lt_trans hj hi) _⟩
    exact (die id rfl _ hmem).trans (hzero j hj)
  | retiring id => exact fun a ha => (die id rfl a ha).trans (h a ha)
  | answering call id accepted =>
    rcases call with _ | _ | own
    · cases accepted with
      | true => trivial
      | false => exact fun hid => h (held.subset hid)
    · cases accepted with
      | true => trivial
      | false => exact fun hid => h (held.subset hid)
    · exact h

theorem cell_congr (s : State g τ) (phase : ℕ → Phase τ) {phase' : ℕ → Phase τ} {slot : ℕ}
    (hversion : s'.versions slot = s.versions slot)
    (hphase : (phase' slot).handle.isSome = (phase slot).handle.isSome) :
    cell s' phase' slot = cell s phase slot := by
  rw [cell, cell, hversion, hphase]

theorem inHand_congr {t' : τ} (hpc : s'.pc t' = s.pc t') (hselector : s'.selector.pc t' = s.selector.pc t') :
    inHand s' t' = inHand s t' := by
  rw [inHand, inHand, hpc, hselector]

variable [DecidableEq τ]

/-- A step of the acting thread that moves no slot. -/
theorem Represents.inner (h : Represents s phase) {selector : AxiomSelectorThreads.State g.count τ} {pc : Pc}
    (pool : AxiomSelectorThreads.Represents selector (fun slot => (phase slot).owner))
    (others : ∀ t' ≠ t, selector.pc t' = s.selector.pc t')
    (hold : inHand { s.goto t pc with selector := selector } t = inHand s t)
    (linked : Linked pc (selector.pc t)) (consistent : Consistent s t pc) :
    Represents { s.goto t pc with selector := selector } phase := by
  have hself : (s.goto t pc).pc t = pc := Function.update_self _ _ _
  have hothers : ∀ t' ≠ t, (s.goto t pc).pc t' = s.pc t' := fun t' ht => Function.update_of_ne ht _ _
  refine ⟨pool, h.held, ?_, ?_, ?_, h.current, h.clean, h.retired⟩
  · intro t' slot kind
    rw [← h.hand]
    by_cases ht : t' = t
    · rw [ht, hold]
    · have hsame : inHand { s.goto t pc with selector := selector } t' =
          inHand s t' := inHand_congr (hothers t' ht) (others t' ht)
      rw [hsame]
  · intro t'
    by_cases ht : t' = t
    · subst ht
      exact hself.symm ▸ linked
    · change Linked ((s.goto t pc).pc t') (selector.pc t')
      rw [hothers t' ht, others t' ht]
      exact h.linked t'
  · intro t'
    by_cases ht : t' = t
    · subst ht
      exact hself.symm ▸ consistent
    · exact (hothers t' ht).symm ▸ h.consistent t'

/-- A step in which the selector takes no part. -/
theorem Represents.goto (h : Represents s phase) {pc : Pc}
    (hold : inHand (s.goto t pc) t = inHand s t)
    (linked : Linked pc (s.selector.pc t)) (consistent : Consistent s t pc) : Represents (s.goto t pc) phase :=
  h.inner h.pool (fun _ _ => rfl) hold linked consistent

omit [DecidableEq τ] in
theorem update_eq_iff_of_owner {x y : ℕ} {p q : Phase τ} {t' : τ} (ht : t' ≠ t)
    (mine : (phase x).owner = none ∨ (phase x).owner = some t) (mine' : p.owner = none ∨ p.owner = some t)
    (hq : q.owner = some t') : Function.update phase x p y = q ↔ phase y = q := by
  have hne : ∀ r : Phase τ, r.owner = none ∨ r.owner = some t → r ≠ q := by
    rintro r hr rfl
    rcases hr with hr | hr
    · rw [hq] at hr
      cases hr
    · rw [hq] at hr
      exact ht (Option.some.inj hr)
  by_cases hy : y = x
  · rw [hy, Function.update_self]
    exact iff_of_false (hne _ mine') (hne _ mine)
  · rw [Function.update_of_ne hy]

/-- A step of one thread that moves one slot, of its own or a free one. -/
theorem Represents.move (h : Represents s phase) {x : ℕ} {p : Phase τ}
    (mine : (phase x).owner = none ∨ (phase x).owner = some t) (mine' : p.owner = none ∨ p.owner = some t)
    (pool : AxiomSelectorThreads.Represents s'.selector (fun slot => (Function.update phase x p slot).owner))
    (others : ∀ t' ≠ t, s'.pc t' = s.pc t' ∧ s'.selector.pc t' = s.selector.pc t' ∧ s'.held t' = s.held t')
    (held : ∀ id, id ∈ s'.held t ↔ Function.update phase x p id.id = .live t id)
    (hand : ∀ slot kind, inHand s' t = some (slot, kind) ↔
      Function.update phase x p slot = .transit t kind)
    (linked : Linked (s'.pc t) (s'.selector.pc t)) (consistent : Consistent s' t (s'.pc t))
    (older : ∀ r ∈ s.retired, r ∈ s'.retired)
    (elsewhere : ∀ slot ≠ x, s'.versions slot = s.versions slot ∧ ∀ a ∈ g.slotSpan slot, s'.die a = s.die a)
    (current : ∀ id, p.handle = some id → id.id = x ∧ Current s' id)
    (clean : x < g.slotCount → p.handle = none → ∀ a ∈ g.slotSpan x, s'.die a = 0#8)
    (retired : ∀ id n, (id, n) ∈ s'.retired → id.isNull = false ∧ n ≤ s'.uses id.id ∧
      ∃ v : BitVec 16, v.toNat = id.version ∧
      Reaches ⟨false, v + 1#16⟩ (s'.uses id.id - n) (cell s' (Function.update phase x p) id.id)) :
    Represents s' (Function.update phase x p) := by
  refine ⟨pool, ?_, ?_, ?_, ?_, ?_, ?_, retired⟩
  · intro t' id
    by_cases ht : t' = t
    · exact ht ▸ held id
    · rw [(others t' ht).2.2, h.held, update_eq_iff_of_owner ht mine mine' rfl]
  · intro t' slot kind
    by_cases ht : t' = t
    · exact ht ▸ hand slot kind
    · rw [inHand_congr (others t' ht).1 (others t' ht).2.1, h.hand, update_eq_iff_of_owner ht mine mine' rfl]
  · intro t'
    by_cases ht : t' = t
    · exact ht ▸ linked
    · rw [(others t' ht).1, (others t' ht).2.1]
      exact h.linked t'
  · intro t'
    by_cases ht : t' = t
    · exact ht ▸ consistent
    · rw [(others t' ht).1]
      refine (h.consistent t').frame older (others t' ht).2.2 (fun id hid => ?_)
      -- the slot that another thread wipes is not the one that moves
      have hphase := h.closing hid
      refine (elsewhere id.id ?_).2
      rintro rfl
      rw [hphase] at mine
      rcases mine with hm | hm
      · cases hm
      · exact ht (Option.some.inj hm)
  · intro slot id hid
    by_cases hs : slot = x
    · subst hs
      rw [Function.update_self] at hid
      exact current id hid
    · rw [Function.update_of_ne hs] at hid
      obtain ⟨rfl, hnull, hversion⟩ := h.current slot id hid
      exact ⟨rfl, hnull, by rw [(elsewhere id.id hs).1]; exact hversion⟩
  · intro slot hlt hnone
    by_cases hs : slot = x
    · subst hs
      rw [Function.update_self] at hnone
      exact clean hlt hnone
    · rw [Function.update_of_ne hs] at hnone
      intro a ha
      rw [(elsewhere slot hs).2 a ha]
      exact h.clean slot hlt hnone a ha

omit [DecidableEq τ] in
theorem Represents.retired_congr (h : Represents s phase) {phase' : ℕ → Phase τ} (retired : s'.retired = s.retired)
    (uses : s'.uses = s.uses) (versions : s'.versions = s.versions)
    (handles : ∀ slot, (phase' slot).handle.isSome = (phase slot).handle.isSome) :
    ∀ id n, (id, n) ∈ s'.retired → id.isNull = false ∧ n ≤ s'.uses id.id ∧ ∃ v : BitVec 16, v.toNat = id.version ∧
      Reaches ⟨false, v + 1#16⟩ (s'.uses id.id - n) (cell s' phase' id.id) := by
  intro id n hmem
  rw [retired] at hmem
  rw [uses, cell_congr s phase (congrFun versions id.id) (handles id.id)]
  exact h.retired id n hmem

omit [DecidableEq τ] in
theorem isSome_handle_update {x : ℕ} {p : Phase τ} (h : p.handle.isSome = (phase x).handle.isSome) (slot : ℕ) :
    (Function.update phase x p slot).handle.isSome = (phase slot).handle.isSome := by
  by_cases hs : slot = x
  · rw [hs, Function.update_self, h]
  · rw [Function.update_of_ne hs]

omit [DecidableEq τ] in
theorem owner_update (phase : ℕ → Phase τ) (x : ℕ) (p : Phase τ) :
    (fun slot => (Function.update phase x p slot).owner) =
    Function.update (fun slot => (phase slot).owner) x p.owner := by
  funext slot
  by_cases hs : slot = x
  · rw [hs, Function.update_self, Function.update_self]
  · rw [Function.update_of_ne hs, Function.update_of_ne hs]

omit [DecidableEq τ] in
/-- The slot changes its phase and keeps its owner. -/
theorem owner_update_of_eq (phase : ℕ → Phase τ) (x : ℕ) {p : Phase τ} (h : p.owner = (phase x).owner) :
    (fun slot => (Function.update phase x p slot).owner) = fun slot => (phase slot).owner := by
  rw [owner_update, h, Function.update_eq_self]

end Frames

end Qtx.FractalArenaThreads
