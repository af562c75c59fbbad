import Qtx.GgmlBridgeSteps

/-!
# The invariant of the bridges

Live buffers own the contexts in use and the taken slots one to one, and every context
in use says what its buffer needs to be reached safely.
-/
namespace Qtx.GgmlBridge
open SpanMemory FirstFitPools FractalArena OwnershipTables

variable {α : Type} {host : Host α} {s s' : State host} {aa : ArenaAccess α} {buf : BackendBuffer α}

/-- What a live buffer needs of its context and its slot. -/
structure Holds (s : State host) (buf : BackendBuffer α) : Prop where
  access : (s.contextOf buf).arenaAccess = some buf.buft
  header : (s.contextOf buf).header.checkedCast kBufferContextMagic = true
  token : (s.contextOf buf).installToken = buf.buft.header.installToken
  requested : (s.contextOf buf).requestedSize = buf.size
  slot : buf.size = 0 ∧ (s.contextOf buf).basePtr = none ∧ (s.contextOf buf).slotId = .null ∨
    0 < buf.size ∧ buf.size ≤ (host.geometry buf.buft.arena).slotSize ∧
      (s.contextOf buf).basePtr =
        some ⟨buf.buft.arena, ((host.geometry buf.buft.arena).slotSpan (s.contextOf buf).slotId.id).base⟩ ∧
      (s.arenas buf.buft.arena).validate (s.contextOf buf).slotId = true

namespace State

variable (s : State host)

/-- The context that a handle owns. -/
def contextOwner (h : ℕ) : Option ℕ := (s.liveBuffer h).map (·.context)

/-- The slot that a handle owns. -/
def slotOwner (h : ℕ) : Option (α × ℕ) :=
  (s.liveBuffer h).bind (fun buf => if buf.size = 0 then none
    else some (buf.buft.arena, (s.contextOf buf).slotId.id))

/-- The taken slots of all arenas. -/
def occupied : Set (α × ℕ) := {p | p.2 ∈ (s.arenas p.1).occupied}

end State

structure Invariant (s : State host) : Prop where
  issued : ∀ h ∈ s.live, h < s.buffers.length
  holds : ∀ h buf, s.liveBuffer h = some buf → Holds s buf
  contexts : Owned s.contextOwner {i | i ∈ s.pool.used}
  slots : Owned s.slotOwner s.occupied
  known : ∀ buf ∈ s.buffers, buf.context < kContextPoolSize ∧ ∃ bridge, host.arenaAccess bridge = some buf.buft
  retired : ∀ buf ∈ s.buffers, buf.context ∉ s.pool.used → (s.contextOf buf).header.magic = kFreedMagic

theorem Holds.congr (h : Holds s buf) {w : BitVec 32}
    (context : s'.contextOf buf = { s.contextOf buf with writeProtected := w })
    (valid : (s.arenas buf.buft.arena).validate (s.contextOf buf).slotId = true →
      (s'.arenas buf.buft.arena).validate (s.contextOf buf).slotId = true) : Holds s' buf := by
  refine ⟨?_, ?_, ?_, ?_, ?_⟩
  · rw [context]
    exact h.access
  · rw [context]
    exact h.header
  · rw [context]
    exact h.token
  · rw [context]
    exact h.requested
  · rw [context]
    rcases h.slot with hz | ⟨hpos, hle, hbase, hv⟩
    · exact .inl hz
    · exact .inr ⟨hpos, hle, hbase, valid hv⟩

theorem contextOwner_eq_some {h i : ℕ} :
    s.contextOwner h = some i ↔ ∃ buf, s.liveBuffer h = some buf ∧ buf.context = i := by
  simp [State.contextOwner]

theorem slotOwner_eq_some {h : ℕ} {p : α × ℕ} : s.slotOwner h = some p ↔
    ∃ buf, s.liveBuffer h = some buf ∧ buf.size ≠ 0 ∧ p = (buf.buft.arena, (s.contextOf buf).slotId.id) := by
  simp only [State.slotOwner, Option.bind_eq_some_iff, Option.ite_none_left_eq_some, Option.some.injEq]
  exact ⟨fun ⟨buf, hl, hs, hp⟩ => ⟨buf, hl, hs, hp.symm⟩, fun ⟨buf, hl, hs, hp⟩ => ⟨buf, hl, hs, hp.symm⟩⟩

namespace Invariant

variable {h k : ℕ} {buf' : BackendBuffer α}

theorem context_used (inv : Invariant s) (hl : s.liveBuffer h = some buf) : buf.context ∈ s.pool.used :=
  inv.contexts.mem h buf.context (contextOwner_eq_some.mpr ⟨buf, hl, rfl⟩)

theorem context_ne (inv : Invariant s) (hl : s.liveBuffer h = some buf) (hl' : s.liveBuffer k = some buf')
    (hne : h ≠ k) : buf.context ≠ buf'.context := by
  intro heq
  exact hne (inv.contexts.unique h k buf.context (contextOwner_eq_some.mpr ⟨buf, hl, rfl⟩)
    (contextOwner_eq_some.mpr ⟨buf', hl', heq.symm⟩))

theorem slot_ne (inv : Invariant s) (hl : s.liveBuffer h = some buf) (hl' : s.liveBuffer k = some buf')
    (hne : h ≠ k) (hs : buf.size ≠ 0) (hs' : buf'.size ≠ 0) (harena : buf.buft.arena = buf'.buft.arena) :
    (s.contextOf buf).slotId.id ≠ (s.contextOf buf').slotId.id := by
  intro heq
  refine hne (inv.slots.unique h k _ (slotOwner_eq_some.mpr ⟨buf, hl, hs, rfl⟩)
    (slotOwner_eq_some.mpr ⟨buf', hl', hs', ?_⟩))
  rw [harena, heq]

theorem initial (host : Host α) : Invariant (State.new host) := by
  have hlive : ∀ h, (State.new host).liveBuffer h = none := fun h => by simp [State.liveBuffer, State.new]
  have hused : (State.new host).pool.used = ∅ := by
    ext i
    simp [Pool.mem_used, State.new]
  refine ⟨?_, ?_, ?_, ?_, ?_, ?_⟩
  · intro h hl
    simp [State.new] at hl
  · intro h buf hl
    rw [hlive] at hl
    cases hl
  · have howner : (State.new host).contextOwner = fun _ => none := by
      funext h
      rw [State.contextOwner, hlive]
      rfl
    rw [howner, hused]
    simpa using owned_empty
  · have howner : (State.new host).slotOwner = fun _ => none := by
      funext h
      rw [State.slotOwner, hlive]
      rfl
    have hocc : (State.new host).occupied = ∅ := by
      ext p
      simp [State.occupied, State.new]
    rw [howner, hocc]
    exact owned_empty
  · intro buf hb
    simp [State.new] at hb
  · intro buf hb
    simp [State.new] at hb

/-- Nothing changes hands: at most seals, bytes and entries that are not in use differ. -/
theorem of_same_owners (inv : Invariant s) (buffers : s'.buffers = s.buffers) (live : s'.live = s.live)
    (inUse : s'.pool.inUse = s.pool.inUse)
    (kept : ∀ i ∈ s.pool.used, ∃ w, s'.pool.storage i = { s.pool.storage i with writeProtected := w })
    (spare : ∀ i ∉ s.pool.used,
      s'.pool.storage i = s.pool.storage i ∨ (s'.pool.storage i).header.magic = kFreedMagic)
    (occupied : ∀ a, (s'.arenas a).occupied = (s.arenas a).occupied)
    (valid : ∀ a id, (s'.arenas a).validate id = (s.arenas a).validate id) : Invariant s' := by
  have hlive : s'.liveBuffer = s.liveBuffer := by
    funext h
    rw [State.liveBuffer, State.liveBuffer, live, buffers]
  have hused : s'.pool.used = s.pool.used := by
    ext i
    rw [Pool.mem_used, Pool.mem_used, inUse]
  have hslot : s'.slotOwner = s.slotOwner := by
    funext h
    rw [State.slotOwner, State.slotOwner, hlive]
    cases hl : s.liveBuffer h with
    | none => rfl
    | some buf =>
      obtain ⟨w, hw⟩ := kept buf.context (inv.context_used hl)
      rw [Option.bind_some, Option.bind_some, State.contextOf, hw]
      rfl
  refine ⟨?_, ?_, ?_, ?_, ?_, ?_⟩
  · rw [live, buffers]
    exact inv.issued
  · intro h buf hl
    rw [hlive] at hl
    obtain ⟨w, hw⟩ := kept buf.context (inv.context_used hl)
    exact (inv.holds h buf hl).congr hw (fun hv => (valid _ _).trans hv)
  · have howner : s'.contextOwner = s.contextOwner := by
      funext h
      rw [State.contextOwner, State.contextOwner, hlive]
    rw [howner, hused]
    exact inv.contexts
  · have hocc : s'.occupied = s.occupied := by
      ext p
      simp only [State.occupied, occupied]
    rw [hslot, hocc]
    exact inv.slots
  · rw [buffers]
    exact inv.known
  · intro buf hb hi
    rw [buffers] at hb
    rw [hused] at hi
    rcases spare buf.context hi with hsame | hfreed
    · rw [State.contextOf, hsame]
      exact inv.retired buf hb hi
    · exact hfreed

theorem undone (inv : Invariant s) (h : Undone s s') : Invariant s' :=
  inv.of_same_owners h.buffers h.live h.inUse
    (fun i hi => ⟨(s.pool.storage i).writeProtected, h.kept i hi⟩) (fun i _ => h.spare i)
    (fun a => (h.arenas a).occupied) (fun a id => (h.arenas a).validate id)

end Invariant

namespace Made

variable {size i : ℕ} {ctx : BufferContext α}

theorem liveBuffer_eq (h : Made s aa size i ctx s') :
    s'.liveBuffer = Function.update s.liveBuffer s.buffers.length (some ⟨aa, i, size⟩) := by
  funext k
  rw [State.liveBuffer, h.live, h.buffers]
  by_cases hk : k = s.buffers.length
  · subst hk
    simp
  · rw [Function.update_of_ne hk, State.liveBuffer]
    rcases Nat.lt_or_gt_of_ne hk with hlt | hgt
    · simp [hk, List.getElem?_append_left hlt]
    · have hout : (s.buffers ++ [⟨aa, i, size⟩])[k]? = none := List.getElem?_eq_none (by simpa using hgt)
      have hout' : s.buffers[k]? = none := List.getElem?_eq_none (Nat.le_of_lt hgt)
      rw [hout, hout', ite_self, ite_self]

theorem contextOf_self (h : Made s aa size i ctx s') : s'.contextOf ⟨aa, i, size⟩ = ctx := by
  rw [State.contextOf, h.storage, Function.update_self]

theorem contextOf_of_ne (h : Made s aa size i ctx s') (hne : buf.context ≠ i) :
    s'.contextOf buf = s.contextOf buf := by
  rw [State.contextOf, h.storage, Function.update_of_ne hne, State.contextOf]

theorem contextOf_of_live (h : Made s aa size i ctx s') (inv : Invariant s) {k : ℕ}
    (hl : s.liveBuffer k = some buf) : s'.contextOf buf = s.contextOf buf := by
  apply h.contextOf_of_ne
  rintro rfl
  have hused := (Pool.mem_used.mp (inv.context_used hl)).2
  rw [h.spare] at hused
  cases hused

theorem used_eq (h : Made s aa size i ctx s') : s'.pool.used = insert i s.pool.used := by
  rw [← Pool.used_take h.lt]
  ext j
  rw [Pool.mem_used, Pool.mem_used, h.inUse]

theorem validate_of_valid (h : Made s aa size i ctx s') {a : α} {id : GenID}
    (hv : (s.arenas a).validate id = true) :
    (s'.arenas a).validate id = true := by
  rcases h.slot with ⟨-, -, -, harenas⟩ | ⟨-, -, -, hal, harenas⟩
  · rw [harenas]
    exact hv
  · by_cases ha : a = aa.arena
    · subst ha
      exact hal.validate_of_valid hv
    · rw [harenas a ha]
      exact hv

/-- The slot of the new buffer, if it has one. -/
theorem occupied_eq (h : Made s aa size i ctx s') : s'.occupied =
    if size = 0 then s.occupied else insert (aa.arena, ctx.slotId.id) s.occupied := by
  rcases h.slot with ⟨hz, -, -, harenas⟩ | ⟨hpos, -, -, hal, harenas⟩
  · rw [if_pos hz, State.occupied, harenas, State.occupied]
  · rw [if_neg (Nat.ne_of_gt hpos)]
    ext ⟨a, slot⟩
    by_cases ha : a = aa.arena
    · subst ha
      simp [State.occupied, hal.occupied]
    · simp [State.occupied, harenas a ha, ha]

end Made

namespace Invariant

theorem made {size i bridge : ℕ} {ctx : BufferContext α} (inv : Invariant s)
    (access : host.arenaAccess bridge = some aa) (h : Made s aa size i ctx s') : Invariant s' := by
  have hnew : s.liveBuffer s.buffers.length = none := by
    rw [State.liveBuffer, List.getElem?_eq_none (Nat.le_refl _), ite_self]
  have hspare : i ∉ s.pool.used := by
    rw [Pool.mem_used, h.spare]
    simp
  refine ⟨?_, ?_, ?_, ?_, ?_, ?_⟩
  · intro k hk
    rw [h.live, Finset.mem_insert] at hk
    rw [h.buffers, List.length_append, List.length_singleton]
    rcases hk with rfl | hk
    · exact Nat.lt_succ_self _
    · exact Nat.lt_succ_of_lt (inv.issued k hk)
  · intro k buf hl
    rw [h.liveBuffer_eq, update_some_eq_some] at hl
    rcases hl with ⟨-, rfl⟩ | ⟨-, hl⟩
    · refine ⟨?_, ?_, ?_, ?_, ?_⟩
      · rw [h.contextOf_self, h.access]
      · rw [h.contextOf_self, h.header]
        exact TaggedHeader.checkedCast_new _ _
      · rw [h.contextOf_self, h.token]
      · rw [h.contextOf_self, h.requested]
      · rw [h.contextOf_self]
        rcases h.slot with ⟨hz, hbase, hid, -⟩ | ⟨hpos, hle, hbase, hal, -⟩
        · exact .inl ⟨hz, hbase, hid⟩
        · exact .inr ⟨hpos, hle, hbase, hal.validate⟩
    · refine (inv.holds k buf hl).congr (w := (s.contextOf buf).writeProtected) ?_ h.validate_of_valid
      exact h.contextOf_of_live inv hl
  · have howner : s'.contextOwner = Function.update s.contextOwner s.buffers.length (some i) := by
      funext k
      rw [State.contextOwner, h.liveBuffer_eq]
      by_cases hk : k = s.buffers.length
      · subst hk
        simp
      · simp [hk, State.contextOwner]
    have hset : {j | j ∈ s'.pool.used} = insert i {j | j ∈ s.pool.used} := by
      ext j
      simp [h.used_eq]
    rw [howner, hset]
    refine inv.contexts.take ?_ hspare
    rw [State.contextOwner, hnew]
    rfl
  · have howner : s'.slotOwner = Function.update s.slotOwner s.buffers.length
        (if size = 0 then none else some (aa.arena, ctx.slotId.id)) := by
      funext k
      rw [State.slotOwner, h.liveBuffer_eq]
      by_cases hk : k = s.buffers.length
      · subst hk
        simp [h.contextOf_self]
      · rw [Function.update_of_ne hk, Function.update_of_ne hk, State.slotOwner]
        cases hl : s.liveBuffer k with
        | none => rfl
        | some buf => rw [Option.bind_some, Option.bind_some, h.contextOf_of_live inv hl]
    have hnone : s.slotOwner s.buffers.length = none := by
      rw [State.slotOwner, hnew]
      rfl
    rw [howner, h.occupied_eq]
    rcases h.slot with ⟨hz, -, -, -⟩ | ⟨hpos, -, -, hal, -⟩
    · rw [if_pos hz, if_pos hz]
      exact inv.slots.keep hnone.symm
    · rw [if_neg (Nat.ne_of_gt hpos), if_neg (Nat.ne_of_gt hpos)]
      exact inv.slots.take hnone hal.fresh
  · intro buf hb
    rw [h.buffers, List.mem_append, List.mem_singleton] at hb
    rcases hb with hb | rfl
    · exact inv.known buf hb
    · exact ⟨h.lt, bridge, access⟩
  · intro buf hb hi
    rw [h.buffers, List.mem_append, List.mem_singleton] at hb
    rw [h.used_eq, Finset.mem_insert, not_or] at hi
    rcases hb with hb | rfl
    · rw [h.contextOf_of_ne hi.1]
      exact inv.retired buf hb hi.2
    · exact absurd rfl hi.1

end Invariant

/-- The seal is set once and never taken back. -/
def BufferContext.seal (ctx : BufferContext α) : BufferContext α :=
  if ctx.writeProtected = 0#32 then { ctx with writeProtected := 1#32 } else ctx

theorem BufferContext.exists_seal (ctx : BufferContext α) : ∃ w, ctx.seal = { ctx with writeProtected := w } := by
  unfold BufferContext.seal
  split_ifs
  · exact ⟨_, rfl⟩
  · exact ⟨ctx.writeProtected, rfl⟩

section Changes

variable [DecidableEq α]

/-- A buffer goes with its slot and its context. -/
def State.free (s : State host) (h : ℕ) (buf : BackendBuffer α) : State host :=
  (({ s with live := s.live.erase h } : State host).releaseSlot buf.buft.arena
    (s.contextOf buf).slotId).releaseContext
    buf.context

/-- The changes of the shared state, with the handle that goes. -/
inductive Change (s : State host) : Option ℕ → State host → Prop
  | undone {s' : State host} (h : Undone s s') : Change s none s'
  | made {aa : ArenaAccess α} {bridge size i : ℕ} {ctx : BufferContext α} {s' : State host}
      (access : host.arenaAccess bridge = some aa) (h : Made s aa size i ctx s') : Change s none s'
  | wrote {h : ℕ} {buf : BackendBuffer α} {a : α} {r : Span} {die : ℕ → Byte} (live : s.liveBuffer h = some buf)
      (unsealed : (s.contextOf buf).writeProtected = 0#32) (region : s.region buf = some (a, r))
      (frame : ∀ x, x ∉ r → die x = (s.arenas a).die x) : Change s none (s.setDie a die)
  | sealed {h : ℕ} {buf : BackendBuffer α} (live : s.liveBuffer h = some buf) :
      Change s none (s.setContext buf.context .seal)
  | freed {h : ℕ} {buf : BackendBuffer α} (live : s.liveBuffer h = some buf) : Change s (some h) (s.free h buf)

/-- Bytes alone say nothing about who owns a slot. -/
theorem setDie_same (s : State host) (a : α) (die : ℕ → Byte) (b : α) :
    ((s.setDie a die).arenas b).occupied = (s.arenas b).occupied ∧
      ∀ id, ((s.setDie a die).arenas b).validate id = (s.arenas b).validate id := by
  by_cases hb : b = a
  · subst hb
    rw [State.setDie, State.arenas_setArena_self]
    exact ⟨rfl, fun _ => rfl⟩
  · rw [State.setDie, State.arenas_setArena_of_ne hb]
    exact ⟨rfl, fun _ => rfl⟩

theorem arenas_free_of_ne {h : ℕ} {a : α} (ha : a ≠ buf.buft.arena) : (s.free h buf).arenas a = s.arenas a :=
  State.arenas_setArena_of_ne ha

theorem arenas_free_self {h : ℕ} : (s.free h buf).arenas buf.buft.arena =
    ((s.arenas buf.buft.arena).release (s.contextOf buf).slotId).2 := State.arenas_setArena_self

theorem liveBuffer_free {h : ℕ} : (s.free h buf).liveBuffer = Function.update s.liveBuffer h none := by
  funext k
  change (if k ∈ s.live.erase h then s.buffers[k]? else none) = _
  by_cases hk : k = h
  · subst hk
    simp
  · simp [hk, State.liveBuffer]

theorem contextOf_free_of_ne {h : ℕ} {other : BackendBuffer α} (hne : other.context ≠ buf.context) :
    (s.free h buf).contextOf other = s.contextOf other := Pool.storage_release_of_ne hne

namespace Invariant

variable {h : ℕ}

theorem wrote (inv : Invariant s) (a : α) (die : ℕ → Byte) : Invariant (s.setDie a die) :=
  inv.of_same_owners rfl rfl rfl (fun i _ => ⟨(s.pool.storage i).writeProtected, rfl⟩) (fun _ _ => .inl rfl)
    (fun b => (setDie_same s a die b).1) (fun b => (setDie_same s a die b).2)

omit [DecidableEq α] in
theorem sealed (inv : Invariant s) (hl : s.liveBuffer h = some buf) :
    Invariant (s.setContext buf.context .seal) := by
  refine inv.of_same_owners rfl rfl rfl ?_ ?_ (fun _ => rfl) (fun _ _ => rfl)
  · intro i _
    by_cases hi : i = buf.context
    · subst hi
      obtain ⟨w, hw⟩ := (s.pool.storage buf.context).exists_seal
      exact ⟨w, Pool.storage_modify_self.trans hw⟩
    · exact ⟨(s.pool.storage i).writeProtected, Pool.storage_modify_of_ne hi⟩
  · intro i hi
    left
    apply Pool.storage_modify_of_ne
    rintro rfl
    exact hi (inv.context_used hl)

/-- An empty buffer has no slot to give back. -/
theorem arenas_free_of_empty (inv : Invariant s) (hl : s.liveBuffer h = some buf) (hz : buf.size = 0) :
    (s.free h buf).arenas = s.arenas := by
  funext a
  by_cases ha : a = buf.buft.arena
  · subst ha
    rcases (inv.holds h buf hl).slot with ⟨-, -, hid⟩ | ⟨hpos, -⟩
    · rw [arenas_free_self, hid]
      exact congrArg Prod.snd (release_of_not_validate rfl)
    · exact absurd hz (Nat.ne_of_gt hpos)
  · exact arenas_free_of_ne ha

theorem released_free (inv : Invariant s) (hl : s.liveBuffer h = some buf) (hs : buf.size ≠ 0) :
    Released (s.arenas buf.buft.arena) (s.contextOf buf).slotId ((s.free h buf).arenas buf.buft.arena) := by
  rcases (inv.holds h buf hl).slot with ⟨hz, -⟩ | ⟨-, -, -, hv⟩
  · exact absurd hz hs
  · rw [arenas_free_self]
    exact (release_of_validate hv).2

/-- The slots of the other buffers stay as they are. -/
theorem validate_free (inv : Invariant s) (hl : s.liveBuffer h = some buf) {k : ℕ} {other : BackendBuffer α}
    (hk : s.liveBuffer k = some other) (hne : k ≠ h)
    (hv : (s.arenas other.buft.arena).validate (s.contextOf other).slotId = true) :
    ((s.free h buf).arenas other.buft.arena).validate (s.contextOf other).slotId = true := by
  by_cases hs : buf.size = 0
  · rw [inv.arenas_free_of_empty hl hs]
    exact hv
  · by_cases ha : other.buft.arena = buf.buft.arena
    · have hs' : other.size ≠ 0 := by
        rcases (inv.holds k other hk).slot with ⟨-, -, hid⟩ | ⟨hpos, -⟩
        · rw [hid] at hv
          cases hv
        · exact Nat.ne_of_gt hpos
      have hslot := inv.slot_ne hk hl hne hs' hs ha
      rw [ha] at hv ⊢
      exact ((inv.released_free hl hs).validate_of_ne hslot).trans hv
    · rw [arenas_free_of_ne ha]
      exact hv

theorem occupied_free (inv : Invariant s) (hl : s.liveBuffer h = some buf) : (s.free h buf).occupied =
    if buf.size = 0 then s.occupied else s.occupied \ {(buf.buft.arena, (s.contextOf buf).slotId.id)} := by
  by_cases hs : buf.size = 0
  · rw [if_pos hs, State.occupied, inv.arenas_free_of_empty hl hs, State.occupied]
  · rw [if_neg hs]
    ext ⟨a, slot⟩
    by_cases ha : a = buf.buft.arena
    · subst ha
      simp [State.occupied, (inv.released_free hl hs).occupied, and_comm]
    · simp [State.occupied, arenas_free_of_ne ha, ha]

theorem freed (inv : Invariant s) (hl : s.liveBuffer h = some buf) : Invariant (s.free h buf) := by
  have hlt : buf.context < kContextPoolSize := (Pool.mem_used.mp (inv.context_used hl)).1
  have hused : (s.free h buf).pool.used = s.pool.used.erase buf.context := Pool.used_release hlt
  have hctx : s.contextOwner h = some buf.context := contextOwner_eq_some.mpr ⟨buf, hl, rfl⟩
  have hother : ∀ k ≠ h, ∀ other, s.liveBuffer k = some other →
      (s.free h buf).contextOf other = s.contextOf other :=
    fun k hk other ho => contextOf_free_of_ne (inv.context_ne ho hl hk)
  refine ⟨?_, ?_, ?_, ?_, ?_, ?_⟩
  · intro k hk
    exact inv.issued k (Finset.mem_of_mem_erase hk)
  · intro k other ho
    rw [liveBuffer_free, update_none_eq_some] at ho
    exact (inv.holds k other ho.2).congr (w := (s.contextOf other).writeProtected) (hother k ho.1 other ho.2)
      (inv.validate_free hl ho.2 ho.1)
  · have howner : (s.free h buf).contextOwner = Function.update s.contextOwner h none := by
      funext k
      rw [State.contextOwner, liveBuffer_free]
      by_cases hk : k = h
      · subst hk
        simp
      · simp [hk, State.contextOwner]
    have hset : {j | j ∈ (s.free h buf).pool.used} = {j | j ∈ s.pool.used} \ {buf.context} := by
      ext j
      simp [hused, and_comm]
    rw [howner, hset]
    exact inv.contexts.give hctx
  · have howner : (s.free h buf).slotOwner = Function.update s.slotOwner h none := by
      funext k
      rw [State.slotOwner, liveBuffer_free]
      by_cases hk : k = h
      · subst hk
        simp
      · rw [Function.update_of_ne hk, Function.update_of_ne hk, State.slotOwner]
        cases hl' : s.liveBuffer k with
        | none => rfl
        | some other => rw [Option.bind_some, Option.bind_some, hother k hk other hl']
    rw [howner, inv.occupied_free hl]
    by_cases hs : buf.size = 0
    · rw [if_pos hs]
      refine inv.slots.keep ?_
      rw [State.slotOwner, hl, Option.bind_some, if_pos hs]
    · rw [if_neg hs]
      exact inv.slots.give (slotOwner_eq_some.mpr ⟨buf, hl, hs, rfl⟩)
  · exact inv.known
  · intro other hb hi
    rw [hused, Finset.mem_erase, not_and_or, not_not] at hi
    by_cases hc : other.context = buf.context
    · change ((s.pool.release .markFreed buf.context).storage other.context).header.magic = kFreedMagic
      rw [hc, Pool.release_of_lt hlt]
      simp only [Function.update_self]
      rfl
    · rw [contextOf_free_of_ne hc]
      exact inv.retired other hb (hi.resolve_left hc)

/-- No change breaks the invariant. -/
theorem change {gone : Option ℕ} (inv : Invariant s) (h : Change s gone s') : Invariant s' := by
  cases h with
  | undone h => exact inv.undone h
  | made access h => exact inv.made access h
  | wrote _ _ _ _ => exact inv.wrote _ _
  | sealed live => exact inv.sealed live
  | freed live => exact inv.freed live

end Invariant

end Changes

end Qtx.GgmlBridge
