import Qtx.GgmlBridge
import Qtx.OwnershipTables

/-!
# What the callbacks do to the shared state

Every callback that gets a live handle, and every attempt to allocate, makes one of a
few changes. The change is stated exactly, and the invariants are derived from it.
-/
namespace Qtx.GgmlBridge
open SpanMemory FirstFitPools FractalArena

variable {α : Type} {host : Host α}

namespace State

variable (s : State host)

/-- The object of a handle, while the handle is live. -/
def liveBuffer (h : ℕ) : Option (BackendBuffer α) := if h ∈ s.live then s.buffers[h]? else none

/-- The bytes that belong to a buffer. -/
def region (buf : BackendBuffer α) : Option (α × Span) :=
  (s.contextOf buf).basePtr.map (fun base => (base.arena, ⟨base.offset, (s.contextOf buf).requestedSize⟩))

/-- The contents of a buffer. -/
def bytes (buf : BackendBuffer α) : List Byte :=
  match s.region buf with
  | none => []
  | some (a, r) => load (s.arenas a).die r

variable {s}

theorem liveBuffer_eq_some {h : ℕ} {buf : BackendBuffer α} :
    s.liveBuffer h = some buf ↔ h ∈ s.live ∧ s.buffers[h]? = some buf := by
  rw [liveBuffer, Option.ite_none_right_eq_some]

section Arenas

variable [DecidableEq α] {a b : α} {arena : FractalArena (host.geometry a)}

@[simp] theorem arenas_setArena_self : (s.setArena a arena).arenas a = arena := Function.update_self _ _ _

theorem arenas_setArena_of_ne (h : b ≠ a) : (s.setArena a arena).arenas b = s.arenas b :=
  Function.update_of_ne h _ _

@[simp] theorem pool_setArena : (s.setArena a arena).pool = s.pool := rfl

@[simp] theorem buffers_setArena : (s.setArena a arena).buffers = s.buffers := rfl

@[simp] theorem live_setArena : (s.setArena a arena).live = s.live := rfl

end Arenas

end State

variable [DecidableEq α] {s s' : State host} {aa : ArenaAccess α} {size : ℕ}

theorem quiet_refl {g : Geometry} (arena : FractalArena g) : Quiet arena arena :=
  ⟨rfl, fun _ _ => rfl, fun _ _ _ _ => rfl, id⟩

/-- An attempt that left nothing behind. -/
structure Undone (s s' : State host) : Prop where
  arenas : ∀ a, Quiet (s.arenas a) (s'.arenas a)
  inUse : s'.pool.inUse = s.pool.inUse
  kept : ∀ i ∈ s.pool.used, s'.pool.storage i = s.pool.storage i
  spare : ∀ i, s'.pool.storage i = s.pool.storage i ∨ (s'.pool.storage i).header.magic = kFreedMagic
  buffers : s'.buffers = s.buffers
  live : s'.live = s.live

/-- A new buffer with a context and, unless it is empty, a slot of its own. -/
structure Made (s : State host) (aa : ArenaAccess α) (size i : ℕ) (ctx : BufferContext α) (s' : State host) :
    Prop where
  lt : i < kContextPoolSize
  spare : s.pool.inUse i = false
  storage : s'.pool.storage = Function.update s.pool.storage i ctx
  inUse : s'.pool.inUse = Function.update s.pool.inUse i true
  buffers : s'.buffers = s.buffers ++ [⟨aa, i, size⟩]
  live : s'.live = insert s.buffers.length s.live
  header : ctx.header = .new kBufferContextMagic 0#64
  access : ctx.arenaAccess = some aa
  token : ctx.installToken = aa.header.installToken
  requested : ctx.requestedSize = size
  unsealed : ctx.writeProtected = 0#32
  slot : size = 0 ∧ ctx.basePtr = none ∧ ctx.slotId = .null ∧ s'.arenas = s.arenas ∨
    0 < size ∧ size ≤ (host.geometry aa.arena).slotSize ∧
      ctx.basePtr = some ⟨aa.arena, ((host.geometry aa.arena).slotSpan ctx.slotId.id).base⟩ ∧
      Allocated (s.arenas aa.arena) ctx.slotId (s'.arenas aa.arena) ∧ ∀ a ≠ aa.arena, s'.arenas a = s.arenas a

omit [DecidableEq α] in
theorem Undone.refl (s : State host) : Undone s s :=
  ⟨fun _ => quiet_refl _, rfl, fun _ _ => rfl, fun _ => .inl rfl, rfl, rfl⟩

omit [DecidableEq α] in
/-- A context that is taken and retired again. -/
theorem Undone.of_release {i : ℕ} {fresh : BufferContext α} {f : BufferContext α → BufferContext α}
    (lt : i < kContextPoolSize) (spare : s.pool.inUse i = false)
    (arenas : ∀ a, Quiet (s.arenas a) (s'.arenas a)) (buffers : s'.buffers = s.buffers) (live : s'.live = s.live)
    (pool : s'.pool = ((⟨Function.update s.pool.storage i fresh, Function.update s.pool.inUse i true⟩ :
      ContextPool α).modify i f).release .markFreed i) : Undone s s' := by
  rw [Pool.release_of_lt lt] at pool
  refine ⟨arenas, ?_, ?_, ?_, buffers, live⟩
  · rw [pool, Pool.inUse_modify, Function.update_idem, ← spare, Function.update_eq_self]
  · intro j hj
    have hne : j ≠ i := by
      rintro rfl
      rw [Pool.mem_used, spare] at hj
      cases hj.2
    rw [pool]
    simp only [Pool.modify, Function.update_of_ne hne]
  · intro j
    by_cases hj : j = i
    · subst hj
      right
      rw [pool]
      simp only [Function.update_self]
      rfl
    · left
      rw [pool]
      simp only [Pool.modify, Function.update_of_ne hj]

section Allocation

variable {succeeds : Bool}

omit [DecidableEq α] in
theorem checkedCast_arenaAccess {bridge : ℕ} (h : host.arenaAccess bridge = some aa) :
    aa.header.checkedCast kArenaAccessMagic = true := by
  unfold Host.arenaAccess at h
  split at h
  · rw [← Option.some.inj h]
    exact TaggedHeader.checkedCast_new _ _
  · cases h

theorem allocBufferOn_zero (s : State host) (hcast : aa.header.checkedCast kArenaAccessMagic = true) (t : ℕ)
    (succeeds : Bool) :
    (∃ s', allocBufferOn s aa 0 t succeeds = (.handle none, s') ∧ Undone s s') ∨
    ∃ i ctx s', allocBufferOn s aa 0 t succeeds = (.handle (some s.buffers.length), s') ∧ Made s aa 0 i ctx s' := by
  simp only [allocBufferOn, hcast, Bool.not_true, Bool.false_eq_true, if_false, if_true, State.acquire]
  rcases hacq : s.pool.acquire .new with ⟨_ | i, pool⟩
  · left
    refine ⟨_, rfl, ?_⟩
    rw [(Pool.acquire_none hacq).1]
    exact Undone.refl s
  · obtain ⟨lt, spare, rfl⟩ := Pool.acquire_some hacq
    unfold State.bufferInit
    cases succeeds with
    | true =>
      right
      refine ⟨i, ⟨.new kBufferContextMagic 0#64, some aa, .null, none, 0, aa.header.installToken, 0#32⟩, _, rfl, ?_⟩
      refine ⟨lt, spare, ?_, rfl, rfl, rfl, rfl, rfl, rfl, rfl, rfl, .inl ⟨rfl, rfl, rfl, rfl⟩⟩
      simp only [State.setContext, Pool.modify, Function.update_self, Function.update_idem]
      rfl
    | false =>
      left
      refine ⟨_, rfl, ?_⟩
      exact Undone.of_release lt spare (fun _ => quiet_refl _) rfl rfl rfl

/-- The slot of an attempt that fails later is given back. -/
theorem quiet_setArena_release {a : α} {id : GenID} {arena : FractalArena (host.geometry a)}
    (hal : Allocated (s.arenas a) id arena) (b : α) :
    Quiet (s.arenas b) (((s.setArena a arena).releaseSlot a id).arenas b) := by
  by_cases hb : b = a
  · subst hb
    rw [State.releaseSlot, State.arenas_setArena_self, State.arenas_setArena_self]
    exact hal.quiet_release (fun _ _ => rfl)
  · rw [State.releaseSlot, State.arenas_setArena_of_ne hb, State.arenas_setArena_of_ne hb]
    exact quiet_refl _

theorem allocBufferOn_pos (s : State host) (hcast : aa.header.checkedCast kArenaAccessMagic = true)
    (hpos : 0 < size) (t : ℕ) (succeeds : Bool) :
    (∃ s', allocBufferOn s aa size t succeeds = (.handle none, s') ∧ Undone s s') ∨
    ∃ i ctx s', allocBufferOn s aa size t succeeds = (.handle (some s.buffers.length), s') ∧
    Made s aa size i ctx s' := by
  simp only [allocBufferOn, hcast, Bool.not_true, Bool.false_eq_true, if_false, Nat.ne_of_gt hpos]
  by_cases hmax : size > aa.maxBufferSize
  · rw [if_pos hmax]
    exact .inl ⟨s, rfl, Undone.refl s⟩
  · rw [if_neg hmax]
    rcases (s.arenas aa.arena).allocate_cases size aa.tensorAlignment t with ⟨hnull, -⟩ | ⟨hacc, hal⟩
    · left
      rw [hnull]
      refine ⟨_, rfl, ?_⟩
      have hsame : s.setArena aa.arena (s.arenas aa.arena) = s := by
        rw [State.setArena, Function.update_eq_self]
      rw [hsame]
      exact Undone.refl s
    · generalize hres : (s.arenas aa.arena).allocate size aa.tensorAlignment t = res at hal
      obtain ⟨id, arena⟩ := res
      have hview : arena.view id = (host.geometry aa.arena).slotSpan id.id := view_of_validate hal.validate
      have hne : ((host.geometry aa.arena).slotSpan id.id).isEmpty = false := by
        simp [Span.isEmpty, Geometry.slotSpan, Nat.ne_of_gt (host.geometry aa.arena).slotSize_pos]
      simp only [hal.notNull, Bool.false_eq_true, if_false, State.arenas_setArena_self, hview, hne, State.acquire,
        State.pool_setArena]
      rcases hacq : s.pool.acquire .new with ⟨_ | i, pool⟩
      · left
        obtain ⟨rfl, -⟩ := Pool.acquire_none hacq
        refine ⟨_, rfl, ?_⟩
        exact ⟨quiet_setArena_release hal, rfl, fun _ _ => rfl, fun _ => .inl rfl, rfl, rfl⟩
      · obtain ⟨lt, spare, rfl⟩ := Pool.acquire_some hacq
        unfold State.bufferInit
        cases succeeds with
        | true =>
          right
          refine ⟨i, ⟨.new kBufferContextMagic 0#64, some aa, id,
            some ⟨aa.arena, ((host.geometry aa.arena).slotSpan id.id).base⟩, size, aa.header.installToken, 0#32⟩,
            _, rfl, ?_⟩
          refine ⟨lt, spare, ?_, rfl, rfl, rfl, rfl, rfl, rfl, rfl, rfl, .inr ⟨hpos, hacc.2.1, rfl, ?_, ?_⟩⟩
          · simp only [State.setContext, Pool.modify, Function.update_self, Function.update_idem]
            rfl
          · change Allocated _ _ ((s.setArena aa.arena arena).arenas aa.arena)
            rw [State.arenas_setArena_self]
            exact hal
          · intro a ha
            exact State.arenas_setArena_of_ne ha
        | false =>
          left
          refine ⟨_, rfl, ?_⟩
          exact Undone.of_release lt spare (quiet_setArena_release hal) rfl rfl rfl

/-- An attempt to allocate leaves nothing behind, or makes one buffer. -/
theorem allocBuffer_cases (s : State host) (bridge size t : ℕ) (succeeds : Bool) :
    (∃ s', allocBuffer s bridge size t succeeds = (.handle none, s') ∧ Undone s s') ∨
    ∃ aa i ctx s', host.arenaAccess bridge = some aa ∧
      allocBuffer s bridge size t succeeds = (.handle (some s.buffers.length), s') ∧ Made s aa size i ctx s' := by
  unfold allocBuffer
  cases haa : host.arenaAccess bridge with
  | none => exact .inl ⟨s, rfl, Undone.refl s⟩
  | some aa =>
    have hcast := checkedCast_arenaAccess haa
    dsimp only
    rcases Nat.eq_zero_or_pos size with rfl | hpos
    · rcases allocBufferOn_zero s hcast t succeeds with h | ⟨i, ctx, s', h, hm⟩
      · exact .inl h
      · exact .inr ⟨aa, i, ctx, s', rfl, h, hm⟩
    · rcases allocBufferOn_pos s hcast hpos t succeeds with h | ⟨i, ctx, s', h, hm⟩
      · exact .inl h
      · exact .inr ⟨aa, i, ctx, s', rfl, h, hm⟩

end Allocation

end Qtx.GgmlBridge
