import Qtx.GgmlBridgeContents
import Qtx.GgmlBridgeRuns
import Mathlib.Algebra.BigOperators.Group.Finset.Sigma
import Mathlib.Data.Fintype.Prod

/-!
# No slot and no context is lost

Slots and contexts in use are counted against the live buffers. An allocation that fails
has given back whatever it had taken.
-/
namespace Qtx.GgmlBridge
open SpanMemory FirstFitPools FractalArena OwnershipTables TransitionSystems
open scoped BigOperators

variable {α : Type} {host : Host α} {s s' : State host}

theorem slotOwner_isSome {h : ℕ} :
    (s.slotOwner h).isSome = true ↔ ∃ buf, s.liveBuffer h = some buf ∧ buf.size ≠ 0 := by
  rw [Option.isSome_iff_exists]
  constructor
  · rintro ⟨p, hp⟩
    obtain ⟨buf, hl, hs, -⟩ := slotOwner_eq_some.mp hp
    exact ⟨buf, hl, hs⟩
  · rintro ⟨buf, hl, hs⟩
    exact ⟨_, slotOwner_eq_some.mpr ⟨buf, hl, hs, rfl⟩⟩

theorem Invariant.contextOwner_isSome (inv : Invariant s) {h : ℕ} :
    (s.contextOwner h).isSome = true ↔ h ∈ s.live := by
  rw [State.contextOwner, Option.isSome_map, Option.isSome_iff_exists]
  constructor
  · rintro ⟨buf, hl⟩
    exact (State.liveBuffer_eq_some.mp hl).1
  · exact inv.exists_liveBuffer

theorem ncard_occupied [Fintype α] (s : State host) : s.occupied.ncard = ∑ a, (s.arenas a).usedSlots := by
  have hset : s.occupied =
      ((Finset.univ.sigma (fun a => (s.arenas a).occupied)).map
        (Equiv.sigmaEquivProd α ℕ).toEmbedding : Set (α × ℕ)) := by
    ext ⟨a, slot⟩
    simp [State.occupied]
  rw [hset, Set.ncard_coe_finset, Finset.card_map, Finset.card_sigma]
  exact Finset.sum_congr rfl (fun a _ => ((s.arenas a).usedSlots_eq_card).symm)

/-- Every taken slot is that of one live buffer that is not empty. -/
theorem Invariant.usedSlots_eq [Fintype α] (inv : Invariant s) :
    ∑ a, (s.arenas a).usedSlots = {h | ∃ buf, s.liveBuffer h = some buf ∧ buf.size ≠ 0}.ncard := by
  have hset : {h | ∃ buf, s.liveBuffer h = some buf ∧ buf.size ≠ 0} = {h | (s.slotOwner h).isSome = true} := by
    ext h
    exact slotOwner_isSome.symm
  rw [← ncard_occupied, hset]
  exact inv.slots.ncard_eq.symm

/-- Every context in use is that of one live buffer. -/
theorem Invariant.card_used (inv : Invariant s) : s.pool.used.card = s.live.card := by
  have hset : {h | (s.contextOwner h).isSome = true} = (s.live : Set ℕ) := by
    ext h
    exact inv.contextOwner_isSome
  have hcount := inv.contexts.ncard_eq
  rw [hset, Set.ncard_coe_finset] at hcount
  rw [hcount, ← Set.ncard_coe_finset]
  rfl

variable [DecidableEq α]

/-- In every run of calls through live handles, over any number of bridges and whatever
`ggml_backend_buffer_init` answers: the taken slots are counted by the live buffers that
are not empty and the contexts in use by the live buffers, no address belongs to two live
buffers, and a call that hands out no buffer leaves the taken slots, the contexts in use
and every live buffer's context and bytes as they were. -/
theorem allocation_accounting [Fintype α] (host : Host α) {s : State host}
    (run : (system host).Steps Live (.new host) s) :
    ∑ a, (s.arenas a).usedSlots = {h | ∃ buf, s.liveBuffer h = some buf ∧ buf.size ≠ 0}.ncard ∧
    s.pool.used.card = s.live.card ∧
    (∀ h k buf buf' a a' r r', h ≠ k → s.liveBuffer h = some buf → s.liveBuffer k = some buf' →
      s.region buf = some (a, r) → s.region buf' = some (a', r') →
      (addresses host a r).Disjoint (addresses host a' r')) ∧
    ∀ bridge size mixThreadId succeeds,
      (∀ h, (allocBuffer s bridge size mixThreadId succeeds).1 ≠ .handle (some h)) →
      let s' := (allocBuffer s bridge size mixThreadId succeeds).2
      (∀ a, (s'.arenas a).occupied = (s.arenas a).occupied) ∧ s'.pool.inUse = s.pool.inUse ∧ s'.live = s.live ∧
      ∀ h buf, s.liveBuffer h = some buf →
        s'.liveBuffer h = some buf ∧ s'.contextOf buf = s.contextOf buf ∧ s'.bytes buf = s.bytes buf := by
  have inv : Invariant s := invariant_of_live (.initial host) run
  refine ⟨inv.usedSlots_eq, inv.card_used, ?_, ?_⟩
  · intro h k buf buf' a a' r r' hne hl hl' hr hr'
    exact inv.addresses_disjoint hl hl' hne hr hr'
  · intro bridge size t succeeds hfail
    rcases allocBuffer_cases s bridge size t succeeds with ⟨s', hs, hu⟩ | ⟨aa, i, ctx, s', -, hs, -⟩
    · rw [hs]
      refine ⟨fun a => (hu.arenas a).occupied, hu.inUse, hu.live, ?_⟩
      intro h buf hl
      refine ⟨?_, hu.contextOf_of_live inv hl, hu.bytes_eq inv hl⟩
      rw [hu.liveBuffer_eq]
      exact hl
    · exact absurd (congrArg Prod.fst hs) (hfail _)

/-- An empty buffer, a failed attempt, a buffer that is freed, and one that stays. -/
def sampleCalls : List Op :=
  [.allocBuffer 0 200 0 true, .allocBuffer 1 0 0 true, .allocBuffer 0 100 0 false, .freeBuffer (some 0),
    .allocBuffer 0 100 0 true]

/-- One taken slot and two contexts; one more attempt, which fails, changes none of them. -/
theorem allocation_accounting_sample :
    let s := ((system smallHost).restrict Live).after sampleCalls
    let s' := (allocBuffer s 0 100 0 false).2
    {h | ∃ buf, s.liveBuffer h = some buf ∧ buf.size ≠ 0}.ncard = 1 ∧ s.live.card = 2 ∧
      (s'.arenas ()).occupied = (s.arenas ()).occupied ∧ s'.pool.inUse = s.pool.inUse ∧ s'.live = s.live := by
  intro s s'
  have hrun : ((system smallHost).restrict Live).Reachable s := System.reachable_after (by decide +kernel)
  obtain ⟨hslots, hcontexts, -, hfailed⟩ := allocation_accounting smallHost (System.steps_of_restrict hrun)
  have htaken : ∑ a, (s.arenas a).usedSlots = 1 ∧ s.pool.used.card = 2 := by decide +kernel
  have hanswer : (allocBuffer s 0 100 0 false).1 = .handle none := by decide +kernel
  clear_value s
  obtain ⟨hoccupied, hinUse, hlive, -⟩ := hfailed 0 100 0 false (fun h hf => nomatch hanswer.symm.trans hf)
  exact ⟨hslots.symm.trans htaken.1, hcontexts.symm.trans htaken.2, hoccupied (), hinUse, hlive⟩

end Qtx.GgmlBridge
