import Qtx.GgmlBridgeContents
import Qtx.GgmlBridgeRuns

/-!
# Calls through freed handles

The object of a freed handle still points to its context. While the context waits in the
pool its tag stops every call. Once it serves another buffer, only the checks that are
left can stop the call, and there is none for a buffer of the same bridge.
-/
namespace Qtx.GgmlBridge
open SpanMemory FirstFitPools FractalArena OwnershipTables TransitionSystems

variable {α : Type} [DecidableEq α] {host : Host α}

/-- A write stops before its memory operation, or has no byte to write. -/
def WriteStopped (s : State host) (buf : BackendBuffer α) (data offset size : ℕ) : Prop :=
  buf.buft.header.installToken ≠ (s.contextOf buf).installToken ∨ (s.contextOf buf).writeProtected ≠ 0#32 ∨
    tensorRange host (s.contextOf buf) data offset size = none ∨ size = 0

/-- A check of the callback stops the call, although the context of the object is in use. -/
def Stopped (s : State host) (buf : BackendBuffer α) : Op → Prop
  | .allocBuffer _ _ _ _ => True
  | .setTensor _ tensor source offset =>
    ∀ data bytes, tensor = some data → source = some bytes → WriteStopped s buf data offset bytes.length
  | .getTensor _ tensor hasTarget offset size =>
    ∀ data, tensor = some data → hasTarget = true →
      tensorRange host (s.contextOf buf) data offset size = none ∨ size = 0
  | .memsetTensor _ tensor _ offset size => ∀ data, tensor = some data → WriteStopped s buf data offset size
  | .clear _ _ =>
    buf.buft.header.installToken ≠ (s.contextOf buf).installToken ∨ (s.contextOf buf).writeProtected ≠ 0#32 ∨
      (s.contextOf buf).basePtr.isNone
  | .sealBuffer bridge _ =>
    (s.contextOf buf).writeProtected ≠ 0#32 ∨
      ∀ own, host.arenaAccess bridge = some own → own.header.installToken ≠ (s.contextOf buf).installToken
  | .freeBuffer _ => False

/-- Where the call goes through a freed handle whose context is in use again, a check stops it. -/
def Guarded (s : State host) (op : Op) : Prop :=
  ∀ h buf, op.buffer = some h → h ∉ s.live → s.buffers[h]? = some buf → buf.context ∈ s.pool.used → Stopped s buf op

/-- The call goes through no handle that was never returned. -/
def Issued (s : State host) (op : Op) : Prop := ∀ h, op.buffer = some h → h < s.buffers.length

instance (s : State host) (op : Op) : Decidable (Issued s op) :=
  inferInstanceAs (Decidable (∀ h ∈ op.buffer, h < s.buffers.length))

/-- The call reads, modifies, seals and releases nothing of a live buffer. -/
structure Harmless (s : State host) (result : Response × State host) : Prop where
  live : ∀ k buf, s.liveBuffer k = some buf → result.2.liveBuffer k = some buf
  contexts : ∀ k buf, s.liveBuffer k = some buf → result.2.contextOf buf = s.contextOf buf
  bytes : ∀ k buf, s.liveBuffer k = some buf → result.2.bytes buf = s.bytes buf
  slots : ∀ k buf, s.liveBuffer k = some buf →
    (result.2.arenas buf.buft.arena).validate (s.contextOf buf).slotId =
      (s.arenas buf.buft.arena).validate (s.contextOf buf).slotId
  unread : ∀ bytes, result.1 = .data bytes → bytes = []

/-- The call changes nothing at all and hands out no byte. -/
structure Idle (s : State host) (result : Response × State host) : Prop where
  state : result.2 = s
  unread : ∀ bytes, result.1 = .data bytes → bytes = []

variable {s : State host} {h : ℕ} {buf : BackendBuffer α}

omit [DecidableEq α] in
theorem Idle.harmless {result : Response × State host} (hi : Idle s result) : Harmless s result := by
  obtain ⟨response, s'⟩ := result
  obtain rfl : s' = s := hi.state
  exact ⟨fun _ _ hl => hl, fun _ _ _ => rfl, fun _ _ _ => rfl, fun _ _ _ => rfl, hi.unread⟩

theorem setDie_self (s : State host) (a : α) : s.setDie a (s.arenas a).die = s := by
  rw [State.setDie, State.setArena, Function.update_eq_self]

section Freed

omit [DecidableEq α] in
/-- The tag of a context that waits in the pool. -/
theorem Invariant.checkedCast_retired (inv : Invariant s) (hget : s.buffers[h]? = some buf)
    (hi : buf.context ∉ s.pool.used) : (s.contextOf buf).header.checkedCast kBufferContextMagic = false := by
  have hmagic := inv.retired buf (List.mem_of_getElem? hget) hi
  rw [TaggedHeader.checkedCast, hmagic]
  rfl

/-- What a context in use says to whoever reaches it. -/
structure InUse (s : State host) (buf : BackendBuffer α) (aa : ArenaAccess α) : Prop where
  header : (s.contextOf buf).header.checkedCast kBufferContextMagic = true
  access : (s.contextOf buf).arenaAccess = some aa
  accessHeader : aa.header.checkedCast kArenaAccessMagic = true
  token : (s.contextOf buf).installToken = aa.header.installToken
  buft : buf.buft.header.checkedCast kArenaAccessMagic = true

omit [DecidableEq α] in
theorem Invariant.exists_inUse (inv : Invariant s) (hget : s.buffers[h]? = some buf)
    (hi : buf.context ∈ s.pool.used) :
    ∃ aa, InUse s buf aa := by
  obtain ⟨k, hk⟩ := inv.contexts.exists_owner buf.context hi
  obtain ⟨owner, hl, hctx⟩ := contextOwner_eq_some.mp hk
  have hsame : s.contextOf buf = s.contextOf owner := by rw [State.contextOf, State.contextOf, hctx]
  have hh := inv.holds k owner hl
  obtain ⟨-, bridge, hacc⟩ := inv.known buf (List.mem_of_getElem? hget)
  refine ⟨owner.buft, ?_, ?_, inv.checkedCast_buft hl, ?_, checkedCast_arenaAccess hacc⟩
  · rw [hsame, hh.header]
  · rw [hsame, hh.access]
  · rw [hsame, hh.token]

end Freed

section Callbacks

variable {aa : ArenaAccess α} {write : (ℕ → Byte) → Span → ℕ → Byte}

omit [DecidableEq α] in
theorem InUse.validateBufferForWrite_eq (hu : InUse s buf aa) (hget : s.buffers[h]? = some buf) :
    validateBufferForWrite s (some h) =
      if buf.buft.header.installToken ≠ (s.contextOf buf).installToken then some none
      else some (some buf.context) := by
  have hderef : s.deref (some h) = some buf := hget
  simp [validateBufferForWrite, hderef, hu.header, hu.access, hu.accessHeader, hu.buft, hu.token]

theorem InUse.idle_write (hu : InUse s buf aa) (hget : s.buffers[h]? = some buf) {data offset size : ℕ}
    (hstop : WriteStopped s buf data offset size) (hempty : ∀ die span, span.length = 0 → write die span = die) :
    Idle s (writeTensor s (some h) data offset size write) := by
  have hdone : Idle s (.done, s) := ⟨rfl, by simp⟩
  simp only [writeTensor, hu.validateBufferForWrite_eq hget]
  by_cases htoken : buf.buft.header.installToken ≠ (s.contextOf buf).installToken
  · rw [if_pos htoken]
    exact hdone
  · rw [if_neg htoken]
    dsimp only
    split_ifs with hbase hsealed
    · exact hdone
    · exact hdone
    · cases hr : tensorRange host (s.pool.storage buf.context) data offset size with
      | none => exact hdone
      | some range =>
        obtain ⟨a, span⟩ := range
        have hsize : size = 0 := by
          rcases hstop with hne | hne | hnone | hzero
          · exact absurd hne htoken
          · exact absurd hne hsealed
          · exact absurd (hr.symm.trans hnone) (by simp)
          · exact hzero
        have hspan : span.length = 0 := (tensorRange_within hr).1.trans hsize
        dsimp only
        rw [hempty _ span hspan, setDie_self]
        exact hdone

theorem InUse.idle_clear (hu : InUse s buf aa) (hget : s.buffers[h]? = some buf) {value : Byte}
    (hstop : Stopped s buf (.clear (some h) value)) : Idle s (clear s (some h) value) := by
  have hdone : Idle s (.done, s) := ⟨rfl, by simp⟩
  simp only [clear, hu.validateBufferForWrite_eq hget]
  by_cases htoken : buf.buft.header.installToken ≠ (s.contextOf buf).installToken
  · rw [if_pos htoken]
    exact hdone
  · rw [if_neg htoken]
    dsimp only
    cases hbase : (s.pool.storage buf.context).basePtr with
    | none => exact hdone
    | some base =>
      have hsealed : (s.pool.storage buf.context).writeProtected ≠ 0#32 := by
        rcases hstop with hne | hne | hnone
        · exact absurd hne htoken
        · exact hne
        · rw [State.contextOf, hbase] at hnone
          cases hnone
      dsimp only
      rw [if_pos hsealed]
      exact hdone

omit [DecidableEq α] in
theorem InUse.idle_get (hu : InUse s buf aa) (hget : s.buffers[h]? = some buf) {tensor : Option ℕ}
    {hasTarget : Bool} {offset size : ℕ} (hstop : ∀ data, tensor = some data → hasTarget = true →
      tensorRange host (s.contextOf buf) data offset size = none ∨ size = 0) :
    Idle s (getTensor s (some h) tensor hasTarget offset size) := by
  have hderef : s.deref (some h) = some buf := hget
  have hdone : Idle s (.done, s) := ⟨rfl, by simp⟩
  unfold getTensor
  rw [hderef]
  split
  case h_1 _ _ _ buf' data heq =>
    cases heq
    dsimp only
    rw [hu.header]
    simp only [Bool.not_true, Bool.false_eq_true, if_false]
    split_ifs
    · exact hdone
    · cases hr : tensorRange host (s.contextOf buf) data offset size with
      | none => exact hdone
      | some range =>
        obtain ⟨a, span⟩ := range
        have hsize : size = 0 := (hstop data rfl rfl).resolve_left (by simp [hr])
        have hspan : span.length = 0 := (tensorRange_within hr).1.trans hsize
        refine ⟨rfl, ?_⟩
        intro bytes hbytes
        rw [← Response.data.inj hbytes, load, hspan]
        rfl
  case h_2 => exact hdone

omit [DecidableEq α] in
theorem InUse.idle_seal (hu : InUse s buf aa) (hget : s.buffers[h]? = some buf) {bridge : ℕ}
    (hstop : Stopped s buf (.sealBuffer bridge (some h))) : Idle s (sealBuffer s bridge (some h)) := by
  have hderef : s.deref (some h) = some buf := hget
  have hrefused : Idle s (.answer false, s) := ⟨rfl, by simp⟩
  simp only [sealBuffer, hderef, hu.header, Bool.not_true, Bool.false_eq_true, if_false]
  split_ifs
  · exact hrefused
  · cases hown : host.arenaAccess bridge with
    | none => exact hrefused
    | some own =>
      dsimp only
      split_ifs with htoken
      · exact hrefused
      · have hsealed : (s.contextOf buf).writeProtected ≠ 0#32 :=
          hstop.resolve_right (fun hne => hne own hown (not_not.mp htoken).symm)
        have hsame : s.setContext buf.context (fun ctx =>
            if ctx.writeProtected = 0#32 then { ctx with writeProtected := 1#32 } else ctx) = s := by
          have hctx : (s.pool.storage buf.context).writeProtected ≠ 0#32 := hsealed
          rw [State.setContext, Pool.modify, if_neg hctx, Function.update_eq_self]
        rw [hsame]
        exact ⟨rfl, by simp⟩

/-- The tag of a retired context ends every call. -/
theorem idle_of_retired {op : Op} (hop : op.buffer = some h) (hget : s.buffers[h]? = some buf)
    (hcast : (s.contextOf buf).header.checkedCast kBufferContextMagic = false) : Idle s (apply s op) := by
  have hderef : s.deref (some h) = some buf := hget
  have hwrite : validateBufferForWrite s (some h) = none := by simp [validateBufferForWrite, hderef, hcast]
  have hviolation : Idle s (.violation, s) := ⟨rfl, by simp⟩
  have hdone : Idle s (.done, s) := ⟨rfl, by simp⟩
  cases op with
  | allocBuffer _ _ _ _ => cases hop
  | setTensor buffer tensor source offset =>
    obtain rfl : buffer = some h := hop
    cases tensor with
    | none => exact hdone
    | some data =>
      cases source with
      | none => exact hdone
      | some bytes =>
        simp only [apply, setTensor, writeTensor, hwrite]
        exact hviolation
  | getTensor buffer tensor hasTarget offset size =>
    obtain rfl : buffer = some h := hop
    change Idle s (getTensor s (some h) tensor hasTarget offset size)
    unfold getTensor
    rw [hderef]
    split
    case h_1 _ _ _ buf' data heq =>
      cases heq
      simp only [hcast, Bool.not_false, if_true]
      exact hviolation
    case h_2 => exact hdone
  | memsetTensor buffer tensor value offset size =>
    obtain rfl : buffer = some h := hop
    cases tensor with
    | none => exact hdone
    | some data =>
      simp only [apply, memsetTensor, writeTensor, hwrite]
      exact hviolation
  | clear buffer value =>
    obtain rfl : buffer = some h := hop
    simp only [apply, clear, hwrite]
    exact hviolation
  | sealBuffer bridge buffer =>
    obtain rfl : buffer = some h := hop
    simp only [apply, sealBuffer, hderef, hcast, Bool.not_false, if_true]
    exact hviolation
  | freeBuffer buffer =>
    obtain rfl : buffer = some h := hop
    simp only [apply, freeBuffer, hderef, hcast, Bool.not_false, if_true]
    exact hviolation

/-- What stops a call through an object whose context is in use. -/
theorem InUse.idle_of_stopped (hu : InUse s buf aa) {op : Op} (hop : op.buffer = some h)
    (hget : s.buffers[h]? = some buf) (hstop : Stopped s buf op) : Idle s (apply s op) := by
  have hdone : Idle s (.done, s) := ⟨rfl, by simp⟩
  cases op with
  | allocBuffer _ _ _ _ => cases hop
  | setTensor buffer tensor source offset =>
    obtain rfl : buffer = some h := hop
    cases tensor with
    | none => exact hdone
    | some data =>
      cases source with
      | none => exact hdone
      | some bytes =>
        change Idle s (writeTensor s (some h) data offset bytes.length (fun die span => store die span bytes))
        refine hu.idle_write hget (hstop data bytes rfl rfl) ?_
        intro die span hspan
        funext x
        exact store_of_notMem bytes (Span.notMem_of_isEmpty (by simp [Span.isEmpty, hspan]) x)
  | getTensor buffer tensor hasTarget offset size =>
    obtain rfl : buffer = some h := hop
    exact hu.idle_get hget hstop
  | memsetTensor buffer tensor value offset size =>
    obtain rfl : buffer = some h := hop
    cases tensor with
    | none => exact hdone
    | some data =>
      change Idle s (writeTensor s (some h) data offset size (fun die span => fill die span value))
      refine hu.idle_write hget (hstop data rfl) ?_
      intro die span hspan
      funext x
      exact fill_of_notMem (Span.notMem_of_isEmpty (by simp [Span.isEmpty, hspan]) x)
  | clear buffer value =>
    obtain rfl : buffer = some h := hop
    exact hu.idle_clear hget hstop
  | sealBuffer bridge buffer =>
    obtain rfl : buffer = some h := hop
    exact hu.idle_seal hget hstop
  | freeBuffer buffer => exact hstop.elim

end Callbacks

/-- A guarded call through a freed handle does nothing. -/
theorem Invariant.idle_of_guarded (inv : Invariant s) {op : Op} (hop : op.buffer = some h) (hstale : h ∉ s.live)
    (hg : Guarded s op) (hlt : h < s.buffers.length) : Idle s (apply s op) := by
  have hget : s.buffers[h]? = some s.buffers[h] := List.getElem?_eq_getElem hlt
  by_cases hi : s.buffers[h].context ∈ s.pool.used
  · obtain ⟨aa, hu⟩ := inv.exists_inUse hget hi
    exact hu.idle_of_stopped hop hget (hg h _ hop hstale hget hi)
  · exact idle_of_retired hop hget (inv.checkedCast_retired hget hi)

theorem invariant_of_guarded {t : State host} (inv : Invariant s)
    (run : (system host).Steps (fun s op => Issued s op ∧ Guarded s op) s t) : Invariant t := by
  refine run.preserves inv ?_
  rintro t op u ht ⟨hissued, hg⟩ next
  cases next
  by_cases hlive : Live t op
  · exact ht.change (ht.apply_change hlive)
  · simp only [Live, not_forall] at hlive
    obtain ⟨h, hop, hstale⟩ := hlive
    rw [(ht.idle_of_guarded hop hstale hg (hissued h hop)).state]
    exact ht

/-- In every run over any number of bridges in which a check stops each call through a
freed handle whose context is in use again, such calls are harmless to the live buffers. -/
theorem freed_handle_harmless (host : Host α) {s : State host} {op : Op} {h : ℕ}
    (run : (system host).Steps (fun s op => Issued s op ∧ Guarded s op) (.new host) s) (hop : op.buffer = some h)
    (hissued : h < s.buffers.length) (hfreed : h ∉ s.live) (hg : Guarded s op) : Harmless s (apply s op) :=
  ((invariant_of_guarded (.initial host) run).idle_of_guarded hop hfreed hg hissued).harmless

/-- A buffer of one byte is freed, and the bridge makes another one. -/
def recycledCalls : List Op := [.allocBuffer 0 1 0 true, .freeBuffer (some 0), .allocBuffer 0 1 0 true]

/-- The byte of the second buffer changes through the freed handle of the first. -/
theorem freed_handle_writes :
    let s := ((system smallHost).restrict Issued).after recycledCalls
    let op := Op.setTensor (some 0) (some 4096) (some [7#8]) 0
    (system smallHost).Steps Issued (.new smallHost) s ∧ 0 < s.buffers.length ∧ 0 ∉ s.live ∧
      ¬ Harmless s (apply s op) := by
  intro s op
  have hrun : ((system smallHost).restrict Issued).Reachable s := System.reachable_after (by decide +kernel)
  refine ⟨System.steps_of_restrict hrun, by decide +kernel, by decide +kernel, ?_⟩
  intro hh
  have hlive : (s.liveBuffer 1).isSome = true := by decide +kernel
  have hchanged : ∀ buf ∈ s.liveBuffer 1, (apply s op).2.bytes buf ≠ s.bytes buf := by decide +kernel
  obtain ⟨buf, hl⟩ := Option.isSome_iff_exists.mp hlive
  exact hchanged buf hl (hh.bytes 1 buf hl)

/-- The token stops the write where the other buffer belongs to another bridge. -/
theorem freed_handle_harmless_sample :
    let calls := [.allocBuffer 0 1 0 true, .freeBuffer (some 0), .allocBuffer 1 1 0 true]
    let s := ((system smallHost).restrict (fun s op => Issued s op ∧ Live s op)).after calls
    Harmless s (apply s (.setTensor (some 0) (some 4096) (some [7#8]) 0)) := by
  intro calls s
  have hrun : ((system smallHost).restrict (fun s op => Issued s op ∧ Live s op)).Reachable s :=
    System.reachable_after (by decide +kernel)
  have hguarded : (system smallHost).Steps (fun s op => Issued s op ∧ Guarded s op) (.new smallHost) s := by
    refine (System.steps_of_restrict hrun).mono (fun t op hop => ⟨hop.1, ?_⟩)
    intro h buf hbuffer hstale
    exact absurd (hop.2 h hbuffer) hstale
  have htoken : ∀ buf ∈ s.buffers[0]?, buf.buft.header.installToken ≠ (s.contextOf buf).installToken := by
    decide +kernel
  refine freed_handle_harmless smallHost hguarded rfl (by decide +kernel) (by decide +kernel) ?_
  intro h buf hbuffer _ hget _ _ _ _ _
  cases hbuffer
  exact .inl (htoken buf hget)

end Qtx.GgmlBridge
