import Qtx.GgmlBridgeInvariant

/-!
# The contents of the buffers

The bytes of a live buffer lie in its own slot, so a change reaches the bytes of one
buffer at most.
-/
namespace Qtx.GgmlBridge
open SpanMemory FirstFitPools FractalArena OwnershipTables

variable {α : Type} {host : Host α} {s s' : State host} {aa : ArenaAccess α} {h k : ℕ} {buf buf' : BackendBuffer α}
  {a a' : α} {r r' : Span}

theorem bytes_of_region (hr : s.region buf = some (a, r)) : s.bytes buf = load (s.arenas a).die r := by
  rw [State.bytes, hr]

theorem bytes_of_empty (hr : s.region buf = none) : s.bytes buf = [] := by
  rw [State.bytes, hr]

theorem region_congr {w : BitVec 32} (hc : s'.contextOf buf = { s.contextOf buf with writeProtected := w }) :
    s'.region buf = s.region buf := by
  rw [State.region, State.region, hc]

theorem bytes_congr {w : BitVec 32} (hc : s'.contextOf buf = { s.contextOf buf with writeProtected := w })
    (die : ∀ a r, s.region buf = some (a, r) → ∀ x ∈ r, (s'.arenas a).die x = (s.arenas a).die x) :
    s'.bytes buf = s.bytes buf := by
  have hsame := region_congr hc
  cases hr : s.region buf with
  | none => rw [bytes_of_empty hr, bytes_of_empty (hsame.trans hr)]
  | some p =>
    rw [bytes_of_region hr, bytes_of_region (hsame.trans hr)]
    exact load_congr (die p.1 p.2 hr)

/-- Where the bytes of a live buffer are. -/
structure Lies (s : State host) (buf : BackendBuffer α) (a : α) (r : Span) : Prop where
  arena : a = buf.buft.arena
  size : buf.size ≠ 0
  base : r = ⟨((host.geometry a).slotSpan (s.contextOf buf).slotId.id).base, buf.size⟩
  within : r.Within ((host.geometry a).slotSpan (s.contextOf buf).slotId.id)
  occupied : (s.contextOf buf).slotId.id ∈ (s.arenas a).occupied

theorem Invariant.lies (inv : Invariant s) (hl : s.liveBuffer h = some buf) (hr : s.region buf = some (a, r)) :
    Lies s buf a r := by
  have hh := inv.holds h buf hl
  rcases hh.slot with ⟨-, hbase, -⟩ | ⟨hpos, hle, hbase, hv⟩
  · rw [State.region, hbase] at hr
    cases hr
  · rw [State.region, hbase, Option.map_some, Option.some.injEq, Prod.mk.injEq, hh.requested] at hr
    obtain ⟨rfl, rfl⟩ := hr
    refine ⟨rfl, Nat.ne_of_gt hpos, rfl, ?_, (validate_iff.mp hv).2.1⟩
    intro x hx
    exact ⟨hx.1, Nat.lt_of_lt_of_le hx.2 (Nat.add_le_add_left hle _)⟩

theorem Invariant.region_disjoint (inv : Invariant s) (hl : s.liveBuffer h = some buf)
    (hl' : s.liveBuffer k = some buf') (hne : h ≠ k) (hr : s.region buf = some (a, r))
    (hr' : s.region buf' = some (a, r')) : r.Disjoint r' := by
  have hlies := inv.lies hl hr
  have hlies' := inv.lies hl' hr'
  have hslot := inv.slot_ne hl hl' hne hlies.size hlies'.size (hlies.arena.symm.trans hlies'.arena)
  exact (Geometry.slotSpan_disjoint hslot).mono hlies.within hlies'.within

/-- The addresses of a range of a die. -/
def addresses (host : Host α) (a : α) (r : Span) : Span := ⟨host.dieBase a + r.base, r.length⟩

theorem mem_addresses {x : ℕ} : x ∈ addresses host a r ↔ host.dieBase a ≤ x ∧ x - host.dieBase a ∈ r := by
  simp only [addresses, Span.mem_iff]
  omega

theorem Lies.within_die (h : Lies s buf a r) :
    (addresses host a r).Within ⟨host.dieBase a, (host.geometry a).totalSize⟩ := by
  intro x hx
  obtain ⟨hbase, hx⟩ := mem_addresses.mp hx
  have hdie := Geometry.slotSpan_within (lt_of_mem_occupied h.occupied) _ (h.within _ hx)
  simp only [Span.mem_iff] at hdie ⊢
  omega

/-- No address belongs to two live buffers. -/
theorem Invariant.addresses_disjoint (inv : Invariant s) (hl : s.liveBuffer h = some buf)
    (hl' : s.liveBuffer k = some buf') (hne : h ≠ k) (hr : s.region buf = some (a, r))
    (hr' : s.region buf' = some (a', r')) : (addresses host a r).Disjoint (addresses host a' r') := by
  by_cases ha : a = a'
  · subst ha
    intro x hx hx'
    exact inv.region_disjoint hl hl' hne hr hr' _ (mem_addresses.mp hx).2 (mem_addresses.mp hx').2
  · exact (host.die_disjoint a a' ha).mono (inv.lies hl hr).within_die (inv.lies hl' hr').within_die

theorem Undone.liveBuffer_eq (h : Undone s s') : s'.liveBuffer = s.liveBuffer := by
  funext k
  rw [State.liveBuffer, State.liveBuffer, h.live, h.buffers]

theorem Undone.contextOf_of_live (h : Undone s s') (inv : Invariant s) (hl : s.liveBuffer k = some buf) :
    s'.contextOf buf = s.contextOf buf := h.kept _ (inv.context_used hl)

theorem Undone.bytes_eq (h : Undone s s') (inv : Invariant s) (hl : s.liveBuffer k = some buf) :
    s'.bytes buf = s.bytes buf := by
  refine bytes_congr (w := (s.contextOf buf).writeProtected) (h.contextOf_of_live inv hl) ?_
  intro a r hr x hx
  have hlies := inv.lies hl hr
  exact (h.arenas a).die _ hlies.occupied x (hlies.within x hx)

theorem Made.bytes_eq {size i : ℕ} {ctx : BufferContext α} (h : Made s aa size i ctx s') (inv : Invariant s)
    (hl : s.liveBuffer k = some buf) : s'.bytes buf = s.bytes buf := by
  refine bytes_congr (w := (s.contextOf buf).writeProtected) (h.contextOf_of_live inv hl) ?_
  intro a r _ x _
  rcases h.slot with ⟨-, -, -, harenas⟩ | ⟨-, -, -, hal, harenas⟩
  · rw [harenas]
  · by_cases ha : a = aa.arena
    · subst ha
      rw [hal.die]
    · rw [harenas a ha]

section Changes

variable [DecidableEq α]

/-- A write goes to the bytes of one buffer. -/
theorem bytes_setDie {die : ℕ → Byte} (inv : Invariant s) (hl : s.liveBuffer h = some buf)
    (hr : s.region buf = some (a, r)) (frame : ∀ x, x ∉ r → die x = (s.arenas a).die x)
    (hk : s.liveBuffer k = some buf') (hne : k ≠ h) : (s.setDie a die).bytes buf' = s.bytes buf' := by
  refine bytes_congr (w := (s.contextOf buf').writeProtected) rfl ?_
  intro a' r' hr' x hx
  by_cases ha : a' = a
  · subst ha
    rw [State.setDie, State.arenas_setArena_self]
    exact frame x (inv.region_disjoint hk hl hne hr' hr x hx)
  · rw [State.setDie, State.arenas_setArena_of_ne ha]

/-- The slot that is cleared is no other buffer's. -/
theorem bytes_free (inv : Invariant s) (hl : s.liveBuffer h = some buf) (hk : s.liveBuffer k = some buf')
    (hne : k ≠ h) : (s.free h buf).bytes buf' = s.bytes buf' := by
  refine bytes_congr (w := (s.contextOf buf').writeProtected) (contextOf_free_of_ne (inv.context_ne hk hl hne)) ?_
  intro a r hr x hx
  have hlies := inv.lies hk hr
  by_cases hs : buf.size = 0
  · rw [inv.arenas_free_of_empty hl hs]
  · by_cases ha : a = buf.buft.arena
    · have hslot := inv.slot_ne hk hl hne hlies.size hs (hlies.arena.symm.trans ha)
      subst ha
      rw [(inv.released_free hl hs).die]
      exact fill_of_notMem (Geometry.slotSpan_disjoint hslot x (hlies.within x hx))
    · rw [arenas_free_of_ne ha]

end Changes

end Qtx.GgmlBridge
