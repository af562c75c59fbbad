import Qtx.GgmlBridgeContents
import Qtx.GgmlBridgeRuns

/-!
# The bytes that a tensor access reaches

A tensor names its bytes by an address, an offset and a size, which the caller chooses.
The checks accept exactly the accesses that stay inside the buffer, in unbounded integers,
and a buffer lies inside the slot that its handle owns.
-/
namespace Qtx.GgmlBridge
open SpanMemory FractalArena TransitionSystems

variable {α : Type} {host : Host α} {s s' : State host} {h : ℕ} {buf : BackendBuffer α}

namespace State

variable (s : State host)

/-- What `get_base` answers; the null pointer is address zero. -/
def baseAddress (buf : BackendBuffer α) : ℕ :=
  match (s.contextOf buf).basePtr with
  | none => 0
  | some base => host.dieBase base.arena + base.offset

/-- The addresses of a buffer, as many as were requested. -/
def extent (buf : BackendBuffer α) : Span := ⟨s.baseAddress buf, buf.size⟩

end State

/-- An access of `size` bytes stays inside its buffer. -/
def InBounds (s : State host) (buf : BackendBuffer α) (data offset size : ℕ) : Prop :=
  s.baseAddress buf ≤ data ∧ data + offset + size ≤ s.baseAddress buf + buf.size

instance (s : State host) (buf : BackendBuffer α) (data offset size : ℕ) :
    Decidable (InBounds s buf data offset size) :=
  inferInstanceAs (Decidable (_ ∧ _))

/-- In `s'` the addresses from `start` on hold `bytes`, and nothing else differs from `s`. -/
structure Stored (s : State host) (start : ℕ) (bytes : List Byte) (s' : State host) : Prop where
  written : ∀ a x, x < (host.geometry a).totalSize → ∀ i < bytes.length, host.dieBase a + x = start + i →
    bytes[i]? = some ((s'.arenas a).die x)
  frame : ∀ a x, x < (host.geometry a).totalSize → host.dieBase a + x ∉ (⟨start, bytes.length⟩ : Span) →
    (s'.arenas a).die x = (s.arenas a).die x
  owners : ∀ a, s'.arenas a = { s.arenas a with die := (s'.arenas a).die }
  rest : s' = { s with arenas := s'.arenas }

/-- A writer stores exactly the bytes of an access in bounds, and nothing for any other access. -/
def Writes (s : State host) (buf : BackendBuffer α) (data offset : ℕ) (bytes : List Byte)
    (result : Response × State host) :
    Prop :=
  result.1 = .done ∧ (InBounds s buf data offset bytes.length → Stored s (data + offset) bytes result.2) ∧
    (¬ InBounds s buf data offset bytes.length → result.2 = s)

/-- The bytes that a call copied to its caller. -/
def Response.copied : Response → List Byte
  | .data bytes => bytes
  | _ => []

/-- The reader copies exactly the bytes of an access in bounds, and nothing for any other access. -/
def Reads (s : State host) (buf : BackendBuffer α) (data offset size : ℕ) (result : Response × State host) : Prop :=
  result.2 = s ∧ (¬ InBounds s buf data offset size → result.1.copied = []) ∧
    (InBounds s buf data offset size → result.1.copied.length = size ∧
      ∀ a x, x < (host.geometry a).totalSize → ∀ i < size, host.dieBase a + x = data + offset + i →
        result.1.copied[i]? = some ((s.arenas a).die x))

/-- A buffer that is not empty lies inside a slot that no other handle owns. -/
def LiesInOwnSlot (s : State host) (h : ℕ) (buf : BackendBuffer α) : Prop :=
  buf.size ≠ 0 → ∃ slot, s.slotOwner h = some (buf.buft.arena, slot) ∧ slot ∈ (s.arenas buf.buft.arena).occupied ∧
    (∀ k, s.slotOwner k = some (buf.buft.arena, slot) → k = h) ∧
    (s.extent buf).Within (addresses host buf.buft.arena ((host.geometry buf.buft.arena).slotSpan slot))

section Ranges

variable {ctx : BufferContext α} {base : DiePointer α} {data offset size : ℕ}

/-- The checks accept an access exactly when it is in bounds. -/
theorem tensorRange_eq (hbase : ctx.basePtr = some base) (hword : ctx.requestedSize < 2 ^ 64) :
    tensorRange host ctx data offset size =
      if host.dieBase base.arena + base.offset ≤ data ∧
          data + offset + size ≤ host.dieBase base.arena + base.offset + ctx.requestedSize then
        some (base.arena, ⟨base.offset + (data - (host.dieBase base.arena + base.offset) + offset), size⟩)
      else none := by
  rw [tensorRange, hbase]
  dsimp only
  generalize host.dieBase base.arena + base.offset = start
  by_cases hdata : data < start
  · rw [if_pos hdata, if_neg (fun hin => absurd hin.1 (Nat.not_le.mpr hdata))]
  · rw [if_neg hdata]
    by_cases hadd : data - start + offset < 2 ^ 64
    · rw [addOverflow, if_pos hadd]
      have hiff : rangeWithin ctx.requestedSize (data - start + offset) size = true ↔ _ := rangeWithin_iff hword
      dsimp only
      by_cases hin : data - start + offset + size ≤ ctx.requestedSize
      · rw [hiff.mpr hin, if_neg (by decide), if_pos (by omega)]
      · rw [Bool.eq_false_iff.mpr (fun hc => hin (hiff.mp hc)), if_pos (by decide), if_neg (by omega)]
    · rw [addOverflow, if_neg hadd]
      exact (if_neg (by omega)).symm

end Ranges

/-- The context of a live buffer records where the buffer is. -/
theorem Invariant.basePtr_cases (inv : Invariant s) (hl : s.liveBuffer h = some buf) :
    ((s.contextOf buf).basePtr = none ∧ buf.size = 0 ∧ s.baseAddress buf = 0) ∨
    ∃ base, (s.contextOf buf).basePtr = some base ∧ s.region buf = some (base.arena, ⟨base.offset, buf.size⟩) ∧
      s.baseAddress buf = host.dieBase base.arena + base.offset ∧ buf.size < 2 ^ 64 := by
  have hh := inv.holds h buf hl
  rcases hh.slot with ⟨hzero, hbase, -⟩ | ⟨-, hle, hbase, -⟩
  · exact .inl ⟨hbase, hzero, by rw [State.baseAddress, hbase]⟩
  · refine .inr ⟨_, hbase, ?_, by rw [State.baseAddress, hbase], Nat.lt_of_le_of_lt hle Geometry.slotSize_lt⟩
    rw [State.region, hbase, hh.requested, Option.map_some]

/-- The range that the checks accept, on a live buffer. -/
theorem Invariant.tensorRange_live (inv : Invariant s) (hl : s.liveBuffer h = some buf) {base : DiePointer α}
    (hbase : (s.contextOf buf).basePtr = some base) (data offset size : ℕ) :
    tensorRange host (s.contextOf buf) data offset size =
      if InBounds s buf data offset size then
        some (base.arena, ⟨base.offset + (data - s.baseAddress buf + offset), size⟩)
      else none := by
  have hrequested := (inv.holds h buf hl).requested
  rcases inv.basePtr_cases hl with ⟨hnone, -⟩ | ⟨base', hbase', -, haddress, hword⟩
  · rw [hnone] at hbase
    cases hbase
  · obtain rfl := Option.some.inj (hbase'.symm.trans hbase)
    rw [tensorRange_eq hbase (hrequested ▸ hword), hrequested, ← haddress]
    exact if_congr Iff.rfl rfl rfl

section Writers

variable [DecidableEq α]

/-- Bytes that are stored in a part of a buffer. -/
theorem Invariant.stored_setDie (inv : Invariant s) (hl : s.liveBuffer h = some buf) {a : α} {r span : Span}
    (hr : s.region buf = some (a, r)) (hwithin : span.Within r) {bytes : List Byte} {die : ℕ → Byte}
    (hlength : span.length = bytes.length) (hin : ∀ x ∈ span, bytes[x - span.base]? = some (die x))
    (hout : ∀ x, x ∉ span → die x = (s.arenas a).die x) :
    Stored s (host.dieBase a + span.base) bytes (s.setDie a die) := by
  have hlies := inv.lies hl hr
  have hself : (s.setDie a die).arenas a = { s.arenas a with die := die } := State.arenas_setArena_self
  have hother : ∀ b ≠ a, (s.setDie a die).arenas b = s.arenas b := fun b hb => State.arenas_setArena_of_ne hb
  refine ⟨?_, ?_, ?_, rfl⟩
  · intro b x hx i hi haddress
    have hmem : span.base + i ∈ span := ⟨Nat.le_add_right _ _, by omega⟩
    by_cases hb : b = a
    · subst hb
      obtain rfl : x = span.base + i := by omega
      have hbyte := hin _ hmem
      rw [Nat.add_sub_cancel_left] at hbyte
      rw [hself, hbyte]
    · -- the address would belong to two dies
      have hmine : host.dieBase a + (span.base + i) ∈ addresses host a r := by
        refine mem_addresses.mpr ⟨Nat.le_add_right _ _, ?_⟩
        rw [Nat.add_sub_cancel_left]
        exact hwithin _ hmem
      refine absurd (hlies.within_die _ hmine) (host.die_disjoint b a hb _ ?_)
      rw [Span.mem_iff]
      dsimp only
      omega
  · intro b x hx hnot
    by_cases hb : b = a
    · subst hb
      rw [hself]
      refine hout x (fun hmem => hnot ?_)
      rw [Span.mem_iff] at hmem ⊢
      dsimp only
      omega
    · rw [hother b hb]
  · intro b
    by_cases hb : b = a
    · subst hb
      rw [hself]
    · rw [hother b hb]

/-- What the two writers share. -/
theorem Invariant.writeTensor_writes (inv : Invariant s) (hl : s.liveBuffer h = some buf)
    (hunsealed : (s.contextOf buf).writeProtected = 0#32) (data offset : ℕ) (bytes : List Byte)
    {write : (ℕ → Byte) → Span → ℕ → Byte} (frame : ∀ die span x, x ∉ span → write die span x = die x)
    (stores : ∀ die span, span.length = bytes.length →
      ∀ x ∈ span, bytes[x - span.base]? = some (write die span x)) :
    Writes s buf data offset bytes (writeTensor s (some h) data offset bytes.length write) := by
  have hcontext : s.pool.storage buf.context = s.contextOf buf := rfl
  simp only [writeTensor, inv.validateBufferForWrite_live hl, hcontext, hunsealed, ne_eq,
    not_true_eq_false, if_false]
  rcases inv.basePtr_cases hl with ⟨hnone, hzero, haddress⟩ | ⟨base, hbase, hregion, haddress, -⟩
  · -- an empty buffer holds the empty access only
    simp only [hnone, Option.isNone_none, if_true]
    refine ⟨rfl, fun hin => ?_, fun _ => rfl⟩
    have hlength : bytes.length = 0 := by
      have hle := hin.2
      rw [haddress, hzero] at hle
      omega
    refine ⟨fun a x _ i hi => absurd hi (by omega), fun _ _ _ _ => rfl, fun _ => rfl, rfl⟩
  · simp only [hbase, Option.isNone_some, Bool.false_eq_true, if_false, inv.tensorRange_live hl hbase]
    by_cases hin : InBounds s buf data offset bytes.length
    · rw [if_pos hin]
      refine ⟨rfl, fun _ => ?_, fun hc => absurd hin hc⟩
      have hstart : data + offset =
          host.dieBase base.arena + (base.offset + (data - s.baseAddress buf + offset)) := by
        have hle := hin.1
        omega
      rw [hstart]
      refine inv.stored_setDie hl hregion
        (?_ : Span.Within ⟨base.offset + (data - s.baseAddress buf + offset), bytes.length⟩ _) rfl (stores _ _ rfl)
        (fun x hx => frame _ _ _ hx)
      intro x hx
      have hle := hin.2
      rw [Span.mem_iff] at hx ⊢
      dsimp only at hx ⊢
      omega
    · rw [if_neg hin]
      exact ⟨rfl, fun hc => absurd hc hin, fun _ => rfl⟩

theorem Invariant.setTensor_writes (inv : Invariant s) (hl : s.liveBuffer h = some buf)
    (hunsealed : (s.contextOf buf).writeProtected = 0#32) (data offset : ℕ) (source : List Byte) :
    Writes s buf data offset source (setTensor s (some h) (some data) (some source) offset) := by
  apply inv.writeTensor_writes hl hunsealed
  · exact fun _ _ _ hx => store_of_notMem source hx
  · intro die span hlength x hx
    have hlt : x - span.base < source.length := by
      rw [Span.mem_iff] at hx
      omega
    rw [store, if_pos hx, List.getD_eq_getElem _ _ hlt, List.getElem?_eq_getElem hlt]

theorem Invariant.memsetTensor_writes (inv : Invariant s) (hl : s.liveBuffer h = some buf)
    (hunsealed : (s.contextOf buf).writeProtected = 0#32) (data offset size : ℕ) (value : Byte) :
    Writes s buf data offset (List.replicate size value)
    (memsetTensor s (some h) (some data) value offset size) := by
  have hframe : ∀ (die : ℕ → Byte) (span : Span) (x : ℕ), x ∉ span → fill die span value x = die x :=
    fun _ _ _ hx => fill_of_notMem hx
  have hwrites := inv.writeTensor_writes hl hunsealed data offset (List.replicate size value) hframe ?_
  · rwa [List.length_replicate] at hwrites
  · intro die span hlength x hx
    have hlt : x - span.base < (List.replicate size value).length := by
      rw [Span.mem_iff] at hx
      omega
    rw [fill_of_mem hx, List.getElem?_eq_getElem hlt, List.getElem_replicate]

end Writers

theorem Invariant.getTensor_reads (inv : Invariant s) (hl : s.liveBuffer h = some buf) (data offset size : ℕ) :
    Reads s buf data offset size (getTensor s (some h) (some data) true offset size) := by
  have hh := inv.holds h buf hl
  simp only [getTensor, deref_of_live hl, hh.header, Bool.not_true, Bool.false_eq_true, if_false]
  rcases inv.basePtr_cases hl with ⟨hnone, hzero, haddress⟩ | ⟨base, hbase, hregion, haddress, -⟩
  · simp only [hnone, Option.isNone_none, if_true]
    refine ⟨rfl, fun _ => rfl, fun hin => ?_⟩
    have hsize : size = 0 := by
      have hle := hin.2
      rw [haddress, hzero] at hle
      omega
    exact ⟨hsize.symm, fun a x _ i hi => absurd hi (by omega)⟩
  · simp only [hbase, Option.isNone_some, Bool.false_eq_true, if_false, inv.tensorRange_live hl hbase]
    by_cases hin : InBounds s buf data offset size
    · rw [if_pos hin]
      refine ⟨rfl, fun hc => absurd hin hc, fun _ => ⟨length_load _ _, ?_⟩⟩
      intro a x hx i hi haddr
      have hlow := hin.1
      have hhigh := hin.2
      by_cases ha : a = base.arena
      · subst ha
        obtain rfl : x = base.offset + (data - s.baseAddress buf + offset) + i := by omega
        simp [Response.copied, load, hi]
      · -- the address would belong to two dies
        have hmine := (inv.lies hl hregion).within_die (host.dieBase a + x)
          (mem_addresses.mpr ⟨by omega, by rw [Span.mem_iff]; dsimp only; omega⟩)
        refine absurd hmine (host.die_disjoint a base.arena ha _ ?_)
        rw [Span.mem_iff]
        dsimp only
        omega
    · rw [if_neg hin]
      exact ⟨rfl, fun _ => rfl, fun hc => absurd hc hin⟩

theorem Invariant.liesInOwnSlot (inv : Invariant s) (hl : s.liveBuffer h = some buf) : LiesInOwnSlot s h buf := by
  intro hsize
  have howner : s.slotOwner h = some (buf.buft.arena, (s.contextOf buf).slotId.id) :=
    slotOwner_eq_some.mpr ⟨buf, hl, hsize, rfl⟩
  rcases inv.basePtr_cases hl with ⟨-, hzero, -⟩ | ⟨base, -, hregion, haddress, -⟩
  · exact absurd hzero hsize
  · have hlies := inv.lies hl hregion
    have harena : base.arena = buf.buft.arena := hlies.arena
    rw [harena] at hlies haddress
    refine ⟨_, howner, hlies.occupied, fun k hk => inv.slots.unique k h _ hk howner, fun y hy => ?_⟩
    have hmem : y ∈ addresses host buf.buft.arena ⟨base.offset, buf.size⟩ := by
      rw [State.extent, haddress] at hy
      exact hy
    obtain ⟨hlow, hin⟩ := mem_addresses.mp hmem
    exact mem_addresses.mpr ⟨hlow, hlies.within _ hin⟩

section Callbacks

variable [DecidableEq α]

/-- A call through a live handle that does not free it stores into its buffer only. -/
theorem Invariant.apply_into (inv : Invariant s) (hl : s.liveBuffer h = some buf) {op : Op}
    (hop : op.buffer = some h) (hfreed : op.freed = none) :
    (∀ a, ((apply s op).2.arenas a).die = (s.arenas a).die) ∨ WritesInto s buf (apply s op).2 := by
  cases op with
  | allocBuffer _ _ _ _ => cases hop
  | setTensor buffer tensor source offset =>
    obtain rfl : buffer = some h := hop
    cases tensor with
    | none => exact .inl fun _ => rfl
    | some data =>
      cases source with
      | none => exact .inl fun _ => rfl
      | some bytes => exact .inr (inv.writeTensor_into hl data offset _ (fun _ _ _ hx => store_of_notMem bytes hx))
  | getTensor buffer tensor hasTarget offset size =>
    rw [apply, getTensor_state]
    exact .inl fun _ => rfl
  | memsetTensor buffer tensor value offset size =>
    obtain rfl : buffer = some h := hop
    cases tensor with
    | none => exact .inl fun _ => rfl
    | some data => exact .inr (inv.writeTensor_into hl data offset size (fun _ _ _ hx => fill_of_notMem hx))
  | clear buffer value =>
    obtain rfl : buffer = some h := hop
    exact .inr (inv.clear_into hl value)
  | sealBuffer bridge buffer =>
    left
    intro a
    change ((sealBuffer s bridge buffer).2.arenas a).die = _
    unfold sealBuffer
    split
    · rfl
    · dsimp only
      split_ifs
      · rfl
      · rfl
      · split
        · rfl
        · split_ifs <;> rfl
  | freeBuffer buffer =>
    rw [show buffer = none from hfreed] at hop
    cases hop

/-- The bytes that such a call changes belong to its buffer. -/
theorem Invariant.changed_mem_extent (inv : Invariant s) (hl : s.liveBuffer h = some buf) {op : Op}
    (hop : op.buffer = some h) (hfreed : op.freed = none) {a : α} {x : ℕ}
    (hx : ((apply s op).2.arenas a).die x ≠ (s.arenas a).die x) : host.dieBase a + x ∈ s.extent buf := by
  rcases inv.apply_into hl hop hfreed with hsame | hsame | ⟨b, r, die, -, hregion, hframe, hset⟩
  · exact absurd (congrFun (hsame a) x) hx
  · rw [hsame] at hx
    exact absurd rfl hx
  · rw [hset] at hx
    by_cases hb : a = b
    · subst hb
      have hmem : x ∈ r := by
        by_contra hnot
        rw [State.setDie, State.arenas_setArena_self] at hx
        exact hx (hframe x hnot)
      rcases inv.basePtr_cases hl with ⟨hnone, -⟩ | ⟨base, -, hregion', haddress, -⟩
      · rw [State.region, hnone] at hregion
        cases hregion
      · obtain ⟨rfl, rfl⟩ := Prod.mk.inj (Option.some.inj (hregion'.symm.trans hregion))
        rw [Span.mem_iff] at hmem
        rw [State.extent, Span.mem_iff, haddress]
        dsimp only at hmem ⊢
        omega
    · rw [State.setDie, State.arenas_setArena_of_ne hb] at hx
      exact absurd rfl hx

/-- In every run with live handles: through a live handle the writers store and the reader copies exactly
the bytes of an access in bounds, no callback changes a byte outside its buffer, and the buffer lies in its
own slot. -/
theorem tensor_access_exact (host : Host α) {s : State host} (run : (system host).Steps Live (.new host) s) {h : ℕ}
    {buf : BackendBuffer α} (hl : s.liveBuffer h = some buf) :
    ((s.contextOf buf).writeProtected = 0#32 → ∀ data offset,
      (∀ source, Writes s buf data offset source (apply s (.setTensor (some h) (some data) (some source) offset))) ∧
      ∀ size value, Writes s buf data offset (List.replicate size value)
        (apply s (.memsetTensor (some h) (some data) value offset size))) ∧
    (∀ data offset size, Reads s buf data offset size
      (apply s (.getTensor (some h) (some data) true offset size))) ∧
      (∀ op : Op, op.buffer = some h → op.freed = none →
        ∀ a x, ((apply s op).2.arenas a).die x ≠ (s.arenas a).die x → host.dieBase a + x ∈ s.extent buf) ∧
    LiesInOwnSlot s h buf := by
  have inv : Invariant s := invariant_of_live (.initial host) run
  refine ⟨fun hunsealed data offset => ⟨fun source => ?_, fun size value => ?_⟩, fun data offset size => ?_, ?_, ?_⟩
  · exact inv.setTensor_writes hl hunsealed data offset source
  · exact inv.memsetTensor_writes hl hunsealed data offset size value
  · exact inv.getTensor_reads hl data offset size
  · exact fun op hop hfreed a x hx => inv.changed_mem_extent hl hop hfreed hx
  · exact inv.liesInOwnSlot hl

end Callbacks

/-- Two bytes that start seven bytes into a buffer. -/
theorem tensor_access_exact_sample :
    let s := ((system smallHost).restrict Live).after [.allocBuffer 0 200 0 true]
    ∃ buf, s.liveBuffer 0 = some buf ∧ InBounds s buf 4100 3 2 ∧
      Writes s buf 4100 3 [1#8, 2#8] (apply s (.setTensor (some 0) (some 4100) (some [1#8, 2#8]) 3)) := by
  intro s
  have hrun : ((system smallHost).restrict Live).Reachable s := System.reachable_after (by decide +kernel)
  have hsteps : (system smallHost).Steps Live (.new smallHost) s := System.steps_of_restrict hrun
  have hmade : ∃ buf, s.liveBuffer 0 = some buf :=
    (invariant_of_live (.initial smallHost) hsteps).exists_liveBuffer (by decide +kernel)
  have hbuf : ∀ buf ∈ s.liveBuffer 0, (s.contextOf buf).writeProtected = 0#32 ∧ InBounds s buf 4100 3 2 := by
    decide +kernel
  clear_value s
  obtain ⟨buf, hl⟩ := hmade
  obtain ⟨hunsealed, hin⟩ := hbuf buf hl
  have hall := tensor_access_exact smallHost hsteps hl
  exact ⟨buf, hl, hin, (hall.1 hunsealed 4100 3).1 [1#8, 2#8]⟩

end Qtx.GgmlBridge
