import Qtx.FractalArenaIsolation

/-!
# Handing a slot over

A thread may pass a handle that it holds to another one, which is not in a call. The phases
of the slots record the new owner, and nothing else of the arena changes.
-/
namespace Qtx.AxiomSelectorThreads
open AxiomSelector

variable {c : SlotCount} {τ : Type*} [DecidableEq τ]

/-- A held slot changes hands. -/
def State.give (s : State c τ) (slot : ℕ) (t t' : τ) : State c τ :=
  { s with held := Function.update (Function.update s.held t ((s.held t).erase slot)) t' (insert slot (s.held t')) }

theorem mem_give_held {s : State c τ} {slot other : ℕ} {t t' u : τ} (ht : t ≠ t') :
    other ∈ (s.give slot t t').held u ↔
      if other = slot then u = t' ∨ u ≠ t ∧ other ∈ s.held u else other ∈ s.held u := by
  unfold State.give
  dsimp only
  by_cases hu' : u = t'
  · subst hu'
    rw [Function.update_self, Finset.mem_insert]
    split_ifs with hs
    · simp [hs]
    · simp [hs]
  · rw [Function.update_of_ne hu']
    by_cases hu : u = t
    · subst hu
      rw [Function.update_self, Finset.mem_erase]
      split_ifs with hs
      · simp [hs, hu']
      · simp [hs]
    · rw [Function.update_of_ne hu]
      split_ifs with hs
      · simp [hu, hu']
      · rfl

theorem Represents.give {s : State c τ} {owner : ℕ → Option τ} (h : Represents s owner) {slot : ℕ} {t t' : τ}
    (ht : t ≠ t') (hslot : slot ∈ s.held t) (hpc : s.pc t ≠ .releasing slot) :
    Represents (s.give slot t t') (Function.update owner slot (some t')) := by
  have howner : owner slot = some t := (h.owns t slot).mp (.inl hslot)
  have honly : ∀ u, Owns s u slot ↔ u = t := by
    intro u
    rw [h.owns, howner, Option.some_inj, eq_comm]
  have hreturning : ∀ u, s.pc u ≠ .returning (some slot) := by
    intro u hu
    have heq := (honly u).mp (.inr hu)
    subst heq
    exact h.returning u slot hu hslot
  have hheld : ∀ u, slot ∈ s.held u → u = t := fun u hu => (honly u).mp (.inl hu)
  refine ⟨?_, ?_, ?_, ?_, ?_, h.expected⟩
  · intro u other
    rw [Owns, mem_give_held ht]
    by_cases hs : other = slot
    · subst hs
      rw [if_pos rfl, Function.update_self, Option.some_inj]
      constructor
      · rintro ((rfl | ⟨hne, hu⟩) | hu)
        · rfl
        · exact absurd (hheld u hu) hne
        · exact absurd hu (hreturning u)
      · rintro rfl
        exact .inl (.inl rfl)
    · rw [if_neg hs, Function.update_of_ne hs]
      exact h.owns u other
  · intro other
    rw [show (s.give slot t t').selector = s.selector from rfl, h.free]
    by_cases hs : other = slot
    · subst hs
      rw [Function.update_self, howner]
      simp
    · rw [Function.update_of_ne hs]
  · intro other u hu
    by_cases hs : other = slot
    · subst hs
      exact h.bounded other t howner
    · rw [Function.update_of_ne hs] at hu
      exact h.bounded other u hu
  · intro u other hu
    have hmem := h.releasing u other hu
    rw [mem_give_held ht]
    by_cases hs : other = slot
    · subst hs
      obtain rfl := hheld u hmem
      exact absurd hu hpc
    · rwa [if_neg hs]
  · intro u other hu
    have hs : other ≠ slot := by
      rintro rfl
      exact hreturning u hu
    rw [mem_give_held ht, if_neg hs]
    exact h.returning u other hu

end Qtx.AxiomSelectorThreads

namespace Qtx.FractalArenaThreads
open SpanMemory TransitionSystems FractalArena

variable {g : Geometry} {τ : Type*} [DecidableEq τ]

/-- A handle, and the slot under it, change hands. The program stores nothing for it: the new owner has
the handle, and the old one does not use it any more. -/
def State.give (s : State g τ) (id : GenID) (t t' : τ) : State g τ :=
  { s with
    selector := s.selector.give id.id t t'
    held := Function.update (Function.update s.held t ((s.held t).erase id)) t' (insert id (s.held t')) }

variable {s s' : State g τ} {phase : ℕ → Phase τ} {start : τ → ℕ} {t t' : τ} {id : GenID}

theorem give_held_from (ht : t ≠ t') : (s.give id t t').held t = (s.held t).erase id := by
  unfold State.give
  dsimp only
  rw [Function.update_of_ne ht, Function.update_self]

theorem give_held_to : (s.give id t t').held t' = insert id (s.held t') := Function.update_self _ _ _

omit [DecidableEq τ] in
theorem linked_releasing {pc : Pc} {slot : ℕ} (h : Linked pc (.releasing slot)) :
    ∃ id : GenID, pc = .freeing id ∧ id.id = slot := by
  cases pc with
  | freeing id =>
    injection h with heq
    exact ⟨id, rfl, heq.symm⟩
  | acquiring _ => exact absurd rfl (h.2 slot)
  | _ => cases h

omit [DecidableEq τ] in
theorem linked_returning {pc : Pc} {result : Option ℕ} (h : Linked pc (.returning result)) :
    ∃ a, pc = .acquiring a := by
  cases pc with
  | acquiring a => exact ⟨a, rfl⟩
  | _ => cases h

theorem Represents.give (h : Represents s phase) (ht : t ≠ t') (hid : id ∈ s.held t) (hpc : s.pc t' = .idle) :
    Represents (s.give id t t') (Function.update phase id.id (.live t' id)) := by
  have hphase := (h.held t id).mp hid
  have howner : (phase id.id).owner = some t := by rw [hphase]; rfl
  have hnotReleasing : s.selector.pc t ≠ .releasing id.id := by
    intro hreleasing
    obtain ⟨other, htc, heq⟩ := linked_releasing (hreleasing ▸ h.linked t)
    have hold := (h.hand t other.id .drained).mp (by rw [inHand, htc])
    rw [heq, hphase] at hold
    cases hold
  have hheld : id.id ∈ s.selector.held t := by
    refine ((h.pool.owns t id.id).mpr howner).resolve_right (fun hreturning => ?_)
    obtain ⟨alignmentClass, htc⟩ := linked_returning (hreturning ▸ h.linked t)
    have hold := (h.hand t id.id .claimed).mp (by rw [inHand, htc, hreturning]; rfl)
    rw [hphase] at hold
    cases hold
  refine ⟨?_, ?_, ?_, h.linked, ?_, ?_, ?_, ?_⟩
  · rw [owner_update]
    exact h.pool.give ht hheld hnotReleasing
  · intro u other
    have hown : ∀ v, id ∈ s.held v ↔ v = t := by
      intro v
      rw [h.held, hphase, Phase.live.injEq]
      simp [eq_comm]
    by_cases hs : other.id = id.id
    · rw [hs, Function.update_self, Phase.live.injEq]
      have hother : other ∈ s.held u → other = id := by
        intro hu
        have hlive := (h.held u other).mp hu
        rw [hs, hphase, Phase.live.injEq] at hlive
        exact hlive.2.symm
      unfold State.give
      dsimp only
      by_cases hu' : u = t'
      · subst hu'
        rw [Function.update_self, Finset.mem_insert]
        constructor
        · rintro (rfl | hu)
          · exact ⟨rfl, rfl⟩
          · exact ⟨rfl, (hother hu).symm⟩
        · rintro ⟨-, rfl⟩
          exact .inl rfl
      · rw [Function.update_of_ne hu']
        refine iff_of_false (fun hu => ?_) (fun hc => hu' hc.1.symm)
        by_cases hut : u = t
        · subst hut
          rw [Function.update_self, Finset.mem_erase] at hu
          exact hu.1 (hother hu.2)
        · rw [Function.update_of_ne hut] at hu
          have hmem := hother hu ▸ hu
          exact hut ((hown u).mp hmem)
    · have hne : other ≠ id := fun he => hs (congrArg GenID.id he)
      rw [Function.update_of_ne hs, ← h.held]
      unfold State.give
      dsimp only
      by_cases hu' : u = t'
      · subst hu'
        rw [Function.update_self, Finset.mem_insert, or_iff_right hne]
      · rw [Function.update_of_ne hu']
        by_cases hut : u = t
        · subst hut
          rw [Function.update_self, Finset.mem_erase, and_iff_right hne]
        · rw [Function.update_of_ne hut]
  · intro u slot kind
    rw [show inHand (s.give id t t') u = inHand s u from rfl, h.hand]
    by_cases hs : slot = id.id
    · rw [hs, Function.update_self, hphase]
      exact iff_of_false (by simp) (by simp)
    · rw [Function.update_of_ne hs]
  · intro u
    by_cases hu : u = t'
    · subst hu
      change Consistent _ u (s.pc u)
      rw [hpc]
      trivial
    · have hsub : ∀ other, other ∈ (s.give id t t').held u → other ∈ s.held u := by
        intro other hother
        unfold State.give at hother
        dsimp only at hother
        rw [Function.update_of_ne hu] at hother
        by_cases hut : u = t
        · subst hut
          rw [Function.update_self] at hother
          exact Finset.mem_of_mem_erase hother
        · rwa [Function.update_of_ne hut] at hother
      have hold := h.consistent u
      change Consistent _ u (s.pc u)
      cases hp : s.pc u with
      | answering call other accepted =>
        rw [hp] at hold
        cases call with
        | release own => exact hold
        | validate =>
          cases accepted with
          | true => trivial
          | false => exact fun hmem => hold (hsub other hmem)
        | view =>
          cases accepted with
          | true => trivial
          | false => exact fun hmem => hold (hsub other hmem)
      | loading call other =>
        rw [hp] at hold
        rcases call with _ | _ | own
        · trivial
        · trivial
        · cases own <;> exact hold
      | testing call other =>
        rw [hp] at hold
        rcases call with _ | _ | own
        · trivial
        · trivial
        · cases own <;> exact hold
      | _ =>
        rw [hp] at hold
        exact hold
  · intro slot other hother
    by_cases hs : slot = id.id
    · subst hs
      rw [Function.update_self] at hother
      exact h.current id.id other (by rw [hphase]; exact hother)
    · rw [Function.update_of_ne hs] at hother
      exact h.current slot other hother
  · intro slot hlt hnone
    refine h.clean slot hlt ?_
    by_cases hs : slot = id.id
    · subst hs
      rw [Function.update_self] at hnone
      cases hnone
    · rwa [Function.update_of_ne hs] at hnone
  · exact h.retired_congr rfl rfl rfl (isSome_handle_update (by rw [hphase]; rfl))

end Qtx.FractalArenaThreads
