import Qtx.GgmlBridgeInvariant
import Qtx.TransitionSystems

/-!
# Runs of the bridges

One step is one call of ggml or of the application. A call through a live handle makes
one of the changes; a call through a freed handle makes none where a check stops it.
-/
namespace Qtx.GgmlBridge
open SpanMemory FirstFitPools TransitionSystems

/-- A null pointer is `none`. -/
inductive Op
  | allocBuffer (bridge size mixThreadId : ℕ) (succeeds : Bool)
  | setTensor (buffer tensor : Option ℕ) (source : Option (List Byte)) (offset : ℕ)
  | getTensor (buffer tensor : Option ℕ) (hasTarget : Bool) (offset size : ℕ)
  | memsetTensor (buffer tensor : Option ℕ) (value : Byte) (offset size : ℕ)
  | clear (buffer : Option ℕ) (value : Byte)
  | sealBuffer (bridge : ℕ) (buffer : Option ℕ)
  | freeBuffer (buffer : Option ℕ)

namespace Op

/-- The handle a call goes through. -/
def buffer : Op → Option ℕ
  | allocBuffer _ _ _ _ => none
  | setTensor buffer _ _ _ => buffer
  | getTensor buffer _ _ _ _ => buffer
  | memsetTensor buffer _ _ _ _ => buffer
  | clear buffer _ => buffer
  | sealBuffer _ buffer => buffer
  | freeBuffer buffer => buffer

/-- The handle a call gives up. -/
def freed : Op → Option ℕ
  | freeBuffer buffer => buffer
  | _ => none

end Op

variable {α : Type} [DecidableEq α] {host : Host α}

def apply (s : State host) : Op → Response × State host
  | .allocBuffer bridge size mixThreadId succeeds => allocBuffer s bridge size mixThreadId succeeds
  | .setTensor buffer tensor source offset => setTensor s buffer tensor source offset
  | .getTensor buffer tensor hasTarget offset size => getTensor s buffer tensor hasTarget offset size
  | .memsetTensor buffer tensor value offset size => memsetTensor s buffer tensor value offset size
  | .clear buffer value => clear s buffer value
  | .sealBuffer bridge buffer => sealBuffer s bridge buffer
  | .freeBuffer buffer => freeBuffer s buffer

def system (host : Host α) : System (State host) Op := ⟨.new host, fun s op => some (apply s op).2⟩

/-- The call goes through no freed handle. -/
def Live (s : State host) (op : Op) : Prop := ∀ h, op.buffer = some h → h ∈ s.live

instance (s : State host) (op : Op) : Decidable (Live s op) :=
  inferInstanceAs (Decidable (∀ h ∈ op.buffer, h ∈ s.live))

/-- Two bridges over one arena of 64 slots. -/
def smallHost : Host Unit where
  geometry _ := smallGeometry
  dieBase _ := 4096
  die_fits _ := by decide
  die_disjoint _ _ h := absurd rfl h
  bridges := [⟨some (), ⟨0, 128⟩, true⟩, ⟨some (), ⟨0, 128⟩, true⟩]
  bridges_fit := by decide

variable {s : State host} {h : ℕ} {buf : BackendBuffer α}

section Calls

omit [DecidableEq α]

theorem Invariant.exists_liveBuffer (inv : Invariant s) (hl : h ∈ s.live) : ∃ buf, s.liveBuffer h = some buf := by
  have hlt := inv.issued h hl
  exact ⟨s.buffers[h], State.liveBuffer_eq_some.mpr ⟨hl, List.getElem?_eq_getElem hlt⟩⟩

theorem deref_of_live (hl : s.liveBuffer h = some buf) : s.deref (some h) = some buf :=
  (State.liveBuffer_eq_some.mp hl).2

theorem Invariant.checkedCast_buft (inv : Invariant s) (hl : s.liveBuffer h = some buf) :
    buf.buft.header.checkedCast kArenaAccessMagic = true := by
  have hmem : buf ∈ s.buffers := List.mem_of_getElem? (State.liveBuffer_eq_some.mp hl).2
  obtain ⟨-, bridge, hacc⟩ := inv.known buf hmem
  exact checkedCast_arenaAccess hacc

/-- The three layers of checks pass on a live handle. -/
theorem Invariant.validateBufferForWrite_live (inv : Invariant s) (hl : s.liveBuffer h = some buf) :
    validateBufferForWrite s (some h) = some (some buf.context) := by
  have hh := inv.holds h buf hl
  simp [validateBufferForWrite, deref_of_live hl, hh.header, hh.access, inv.checkedCast_buft hl, hh.token]

theorem tensorRange_within {ctx : BufferContext α} {data offset size : ℕ} {a : α} {span : Span}
    (h : tensorRange host ctx data offset size = some (a, span)) :
    span.length = size ∧ ∃ base, ctx.basePtr = some base ∧ a = base.arena ∧
      span.Within ⟨base.offset, ctx.requestedSize⟩ := by
  unfold tensorRange at h
  cases hb : ctx.basePtr with
  | none => simp [hb] at h
  | some base =>
    simp only [hb] at h
    split_ifs at h with hdata
    cases hadd : addOverflow (data - (host.dieBase base.arena + base.offset)) offset with
    | none => simp [hadd] at h
    | some totalOffset =>
      simp only [hadd] at h
      split_ifs at h with hr
      obtain ⟨rfl, rfl⟩ := Prod.mk.inj (Option.some.inj h)
      refine ⟨rfl, base, rfl, rfl, ?_⟩
      have hle := rangeWithin_le (by simpa using hr)
      intro x hx
      simp only [Span.mem_iff] at hx ⊢
      omega

end Calls

/-- A call leaves the state as it is, or stores into the bytes of a buffer that is not sealed. -/
def WritesInto (s : State host) (buf : BackendBuffer α) (s' : State host) : Prop :=
  s' = s ∨ ∃ a r die, (s.contextOf buf).writeProtected = 0#32 ∧ s.region buf = some (a, r) ∧
    (∀ x, x ∉ r → die x = (s.arenas a).die x) ∧ s' = s.setDie a die

theorem WritesInto.change {s' : State host} (hw : WritesInto s buf s') (hl : s.liveBuffer h = some buf) :
    Change s none s' := by
  rcases hw with rfl | ⟨a, r, die, hunsealed, hregion, hframe, rfl⟩
  · exact .undone (.refl s')
  · exact .wrote hl hunsealed hregion hframe

section Writes

variable {write : (ℕ → Byte) → Span → ℕ → Byte}

theorem Invariant.writeTensor_into (inv : Invariant s) (hl : s.liveBuffer h = some buf) (data offset size : ℕ)
    (frame : ∀ die span x, x ∉ span → write die span x = die x) :
    WritesInto s buf (writeTensor s (some h) data offset size write).2 := by
  simp only [writeTensor, inv.validateBufferForWrite_live hl]
  cases hb : (s.pool.storage buf.context).basePtr with
  | none => exact .inl rfl
  | some base =>
    simp only [Option.isNone_some, Bool.false_eq_true, if_false]
    by_cases hw : (s.pool.storage buf.context).writeProtected = 0#32
    · rw [if_neg (not_not.mpr hw)]
      cases hr : tensorRange host (s.pool.storage buf.context) data offset size with
      | none => exact .inl rfl
      | some range =>
        obtain ⟨a, span⟩ := range
        obtain ⟨-, base', hbase, rfl, hwithin⟩ := tensorRange_within hr
        have hregion : s.region buf = some (base'.arena, ⟨base'.offset, (s.contextOf buf).requestedSize⟩) := by
          rw [State.region, State.contextOf, hbase]
          rfl
        exact .inr ⟨_, _, _, hw, hregion, fun x hx => frame _ _ _ (fun hmem => hx (hwithin x hmem)), rfl⟩
    · rw [if_pos hw]
      exact .inl rfl

theorem Invariant.clear_into (inv : Invariant s) (hl : s.liveBuffer h = some buf) (value : Byte) :
    WritesInto s buf (clear s (some h) value).2 := by
  simp only [clear, inv.validateBufferForWrite_live hl]
  cases hb : (s.pool.storage buf.context).basePtr with
  | none => exact .inl rfl
  | some base =>
    by_cases hw : (s.pool.storage buf.context).writeProtected = 0#32
    · simp only [hw, ne_eq, not_true_eq_false, if_false]
      have hregion : s.region buf = some (base.arena, ⟨base.offset, (s.contextOf buf).requestedSize⟩) := by
        rw [State.region, State.contextOf, hb]
        rfl
      exact .inr ⟨_, _, _, hw, hregion, fun x hx => fill_of_notMem hx, rfl⟩
    · simp only [hw, ne_eq, not_false_eq_true, if_true]
      exact .inl rfl

end Writes

theorem Invariant.sealBuffer_change (inv : Invariant s) (hl : s.liveBuffer h = some buf) (bridge : ℕ) :
    Change s none (sealBuffer s bridge (some h)).2 := by
  have hh := inv.holds h buf hl
  simp only [sealBuffer, deref_of_live hl, hh.header, Bool.not_true, Bool.false_eq_true, if_false]
  split_ifs
  · exact .undone (.refl s)
  · cases host.arenaAccess bridge with
    | none => exact .undone (.refl s)
    | some own =>
      dsimp only
      split_ifs
      · exact .undone (.refl s)
      · exact .sealed hl

theorem Invariant.freeBuffer_eq (inv : Invariant s) (hl : s.liveBuffer h = some buf) :
    freeBuffer s (some h) = (.done, s.free h buf) := by
  have hh := inv.holds h buf hl
  simp only [freeBuffer, deref_of_live hl, hh.header, hh.access, inv.checkedCast_buft hl, hh.token, Bool.not_true,
    Bool.false_eq_true, if_false, if_true]
  rfl

omit [DecidableEq α] in
theorem getTensor_state (s : State host) (buffer tensor : Option ℕ) (hasTarget : Bool) (offset size : ℕ) :
    (getTensor s buffer tensor hasTarget offset size).2 = s := by
  unfold getTensor
  split
  · dsimp only
    split_ifs
    · rfl
    · rfl
    · split <;> rfl
  · rfl

/-- A call through no handle, or through a live one, makes one change. -/
theorem Invariant.apply_change (inv : Invariant s) {op : Op} (live : Live s op) :
    Change s op.freed (apply s op).2 := by
  cases op with
  | allocBuffer bridge size t succeeds =>
    rcases allocBuffer_cases s bridge size t succeeds with ⟨s', hs, hu⟩ | ⟨aa, i, ctx, s', hacc, hs, hm⟩
    · rw [apply, hs]
      exact .undone hu
    · rw [apply, hs]
      exact .made hacc hm
  | setTensor buffer tensor source offset =>
    cases buffer with
    | none =>
      cases tensor <;> cases source <;> exact .undone (.refl s)
    | some h =>
      obtain ⟨buf, hl⟩ := inv.exists_liveBuffer (live h rfl)
      cases tensor with
      | none => exact .undone (.refl s)
      | some data =>
        cases source with
        | none => exact .undone (.refl s)
        | some bytes =>
            exact (inv.writeTensor_into hl data offset _ (fun _ _ _ hx => store_of_notMem bytes hx)).change hl
  | getTensor buffer tensor hasTarget offset size =>
    rw [apply, getTensor_state]
    exact .undone (.refl s)
  | memsetTensor buffer tensor value offset size =>
    cases buffer with
    | none => cases tensor <;> exact .undone (.refl s)
    | some h =>
      obtain ⟨buf, hl⟩ := inv.exists_liveBuffer (live h rfl)
      cases tensor with
      | none => exact .undone (.refl s)
      | some data => exact (inv.writeTensor_into hl data offset size (fun _ _ _ hx => fill_of_notMem hx)).change hl
  | clear buffer value =>
    cases buffer with
    | none => exact .undone (.refl s)
    | some h =>
      obtain ⟨buf, hl⟩ := inv.exists_liveBuffer (live h rfl)
      exact (inv.clear_into hl value).change hl
  | sealBuffer bridge buffer =>
    cases buffer with
    | none => exact .undone (.refl s)
    | some h =>
      obtain ⟨buf, hl⟩ := inv.exists_liveBuffer (live h rfl)
      exact inv.sealBuffer_change hl bridge
  | freeBuffer buffer =>
    cases buffer with
    | none => exact .undone (.refl s)
    | some h =>
      obtain ⟨buf, hl⟩ := inv.exists_liveBuffer (live h rfl)
      rw [apply, inv.freeBuffer_eq hl]
      exact .freed hl

/-- Runs without calls through freed handles keep the invariant. -/
theorem invariant_of_live {s t : State host} (inv : Invariant s) (run : (system host).Steps Live s t) :
    Invariant t := by
  refine run.preserves inv ?_
  intro t op u ht hop next
  cases next
  exact ht.change (ht.apply_change hop)

end Qtx.GgmlBridge
