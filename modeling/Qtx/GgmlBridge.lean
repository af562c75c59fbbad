import Qtx.FirstFitPools
import Qtx.FractalArena
import Qtx.GgmlSafety

/-!
# The bridge between ggml and the arena

The bridges, the pool of buffer contexts they share, and the buffers that ggml holds.
Bridges outlive every run, so a pointer to an `ArenaAccess` is the record itself. A
pointer into a die is the arena with an offset, and its address is counted from where
the die lies. Handles of ggml are numbered in the order in which ggml made them; the
object of a freed handle stays readable with its old contents.
-/
namespace Qtx.GgmlBridge
open SpanMemory FirstFitPools

structure BridgeConfig where
  maxBufferSize : ℕ
  tensorAlignment : ℕ

/-- Values that the arena cannot serve are replaced without a report. -/
def validateConfig (cfg : BridgeConfig) (arenaSlotSize : ℕ) : BridgeConfig :=
  let align := if cfg.tensorAlignment = 0 || !isPowerOfTwo cfg.tensorAlignment then 128 else cfg.tensorAlignment
  { maxBufferSize :=
      if cfg.maxBufferSize = 0 || cfg.maxBufferSize > arenaSlotSize then arenaSlotSize else cfg.maxBufferSize
    tensorAlignment := if align > arenaSlotSize then arenaSlotSize else align }

structure ArenaAccess (α : Type) where
  header : TaggedHeader
  maxBufferSize : ℕ
  tensorAlignment : ℕ
  arena : α

/-- The arguments of one constructor call, and whether `new` found memory. -/
structure Construction (α : Type) where
  arena : Option α
  config : BridgeConfig
  stored : Bool

/-- The arenas of a process, where their dies lie, and its bridges in the order of
construction. Every bridge has storage of its own, aligned to eight bytes, in an address
space of 64 bits. -/
structure Host (α : Type) where
  geometry : α → Geometry
  dieBase : α → ℕ
  die_fits : ∀ a, dieBase a + (geometry a).totalSize ≤ 2 ^ 64
  die_disjoint : ∀ a b, a ≠ b →
    Span.Disjoint ⟨dieBase a, (geometry a).totalSize⟩ ⟨dieBase b, (geometry b).totalSize⟩
  bridges : List (Construction α)
  bridges_fit : bridges.length ≤ 2 ^ 61

variable {α : Type}

namespace Host

variable (host : Host α)

/-- How many tokens were handed out before the bridge was made. -/
def serial (bridge : ℕ) : ℕ := (host.bridges.take bridge).countP (fun c => c.arena.isSome)

/-- The `ArenaAccess` in the storage of a bridge, if the bridge has storage. -/
def arenaAccess (bridge : ℕ) : Option (ArenaAccess α) :=
  match host.bridges[bridge]? with
  | some ⟨some a, cfg, true⟩ =>
    let cfg := validateConfig cfg (host.geometry a).slotSize
    some ⟨.new kArenaAccessMagic (nextInstallToken (host.serial bridge)), cfg.maxBufferSize, cfg.tensorAlignment, a⟩
  | _ => none

end Host

/-- A pointer into the die of an arena. -/
structure DiePointer (α : Type) where
  arena : α
  offset : ℕ

structure BufferContext (α : Type) where
  header : TaggedHeader
  arenaAccess : Option (ArenaAccess α)
  slotId : GenID
  basePtr : Option (DiePointer α)
  requestedSize : ℕ
  installToken : BitVec 64
  writeProtected : BitVec 32

def BufferContext.new : BufferContext α := ⟨.new kBufferContextMagic 0#64, none, .null, none, 0, 0#64, 0#32⟩

def BufferContext.markFreed (ctx : BufferContext α) : BufferContext α := { ctx with header := ctx.header.markFreed }

def kContextPoolSize : ℕ := 2048

abbrev ContextPool (α : Type) := Pool (BufferContext α) kContextPoolSize

/-- `ggml_backend_buffer`: the buffer type, the context and the size it was made with. -/
structure BackendBuffer (α : Type) where
  buft : ArenaAccess α
  context : ℕ
  size : ℕ

/-- `live` are the handles that were returned and not freed yet. -/
structure State (host : Host α) where
  arenas : (a : α) → FractalArena (host.geometry a)
  pool : ContextPool α
  buffers : List (BackendBuffer α)
  live : Finset ℕ

/-- What a call gives back; after a boundary violation it does not return. -/
inductive Response
  | violation
  | handle (buffer : Option ℕ)
  | done
  | data (bytes : List Byte)
  | answer (value : Bool)
  deriving DecidableEq

variable {host : Host α}

namespace State

def new (host : Host α) : State host := ⟨fun _ => .new _, ⟨fun _ => .new, fun _ => false⟩, [], ∅⟩

variable (s : State host)

/-- The object behind a handle, unless the handle is null. -/
def deref (buffer : Option ℕ) : Option (BackendBuffer α) := buffer.bind (fun h => s.buffers[h]?)

/-- The context that a buffer object points to. -/
def contextOf (buf : BackendBuffer α) : BufferContext α := s.pool.storage buf.context

section Arenas

variable [DecidableEq α]

def setArena (a : α) (arena : FractalArena (host.geometry a)) : State host :=
  { s with arenas := Function.update s.arenas a arena }

def releaseSlot (a : α) (id : GenID) : State host := s.setArena a ((s.arenas a).release id).2

def setDie (a : α) (die : ℕ → Byte) : State host := s.setArena a { s.arenas a with die := die }

end Arenas

def acquire : Option ℕ × State host :=
  let (i, pool) := s.pool.acquire .new
  (i, { s with pool := pool })

def releaseContext (i : ℕ) : State host := { s with pool := s.pool.release .markFreed i }

def setContext (i : ℕ) (f : BufferContext α → BufferContext α) : State host := { s with pool := s.pool.modify i f }

/-- `ggml_backend_buffer_init`, which fails or makes a new object. -/
def bufferInit (buf : BackendBuffer α) (succeeds : Bool) : Option ℕ × State host :=
  if succeeds then
    (some s.buffers.length, { s with buffers := s.buffers ++ [buf], live := insert s.buffers.length s.live })
  else (none, s)

end State

section Callbacks

variable [DecidableEq α] (s : State host)

/-- `qtx_buft_alloc_buffer` on the buffer type of a bridge. -/
def allocBufferOn (aa : ArenaAccess α) (size mixThreadId : ℕ) (succeeds : Bool) : Response × State host :=
  if !aa.header.checkedCast kArenaAccessMagic then (.violation, s)
  else if size = 0 then
    match s.acquire with
    | (none, s) => (.handle none, s)
    | (some i, s) =>
      let s := s.setContext i (fun ctx => { ctx with
        arenaAccess := some aa, slotId := .null, basePtr := none, requestedSize := 0,
        installToken := aa.header.installToken })
      match s.bufferInit ⟨aa, i, 0⟩ succeeds with
      | (none, s) => (.handle none, s.releaseContext i)
      | (some h, s) => (.handle (some h), s)
  else if size > aa.maxBufferSize then (.handle none, s)
  else
    let (id, arena) := (s.arenas aa.arena).allocate size aa.tensorAlignment mixThreadId
    if id.isNull then (.handle none, s.setArena aa.arena arena)
    else
      let s := s.setArena aa.arena arena
      let view := (s.arenas aa.arena).view id
      if view.isEmpty then (.handle none, s.releaseSlot aa.arena id)
      else match s.acquire with
        | (none, s) => (.handle none, s.releaseSlot aa.arena id)
        | (some i, s) =>
          let s := s.setContext i (fun ctx => { ctx with
            arenaAccess := some aa, slotId := id, basePtr := some ⟨aa.arena, view.base⟩, requestedSize := size,
            installToken := aa.header.installToken })
          match s.bufferInit ⟨aa, i, size⟩ succeeds with
          | (none, s) => (.handle none, (s.releaseContext i).releaseSlot aa.arena id)
          | (some h, s) => (.handle (some h), s)

/-- `ArenaBridge::allocBuffer`. -/
def allocBuffer (bridge size mixThreadId : ℕ) (succeeds : Bool) : Response × State host :=
  match host.arenaAccess bridge with
  | none => (.handle none, s)
  | some aa => allocBufferOn s aa size mixThreadId succeeds

omit [DecidableEq α] in
/-- The pool index of the context a write may go through; `none` is a boundary violation. -/
def validateBufferForWrite (buffer : Option ℕ) : Option (Option ℕ) :=
  match s.deref buffer with
  | none => some none
  | some buf =>
    let ctx := s.contextOf buf
    if !ctx.header.checkedCast kBufferContextMagic then none
    else match ctx.arenaAccess with
      | none => some none
      | some aa =>
        if !aa.header.checkedCast kArenaAccessMagic then none
        else if !buf.buft.header.checkedCast kArenaAccessMagic then none
        else if buf.buft.header.installToken ≠ aa.header.installToken then some none
        else if ctx.installToken ≠ aa.header.installToken then some none
        else some (some buf.context)

/-- `qtx_buffer_free_buffer`; ggml then deletes its object. -/
def freeBuffer (buffer : Option ℕ) : Response × State host :=
  match buffer, s.deref buffer with
  | some h, some buf =>
    let ctx := s.contextOf buf
    let deleted := { s with live := s.live.erase h }
    if !ctx.header.checkedCast kBufferContextMagic then (.violation, s)
    else match ctx.arenaAccess with
      | none => (.done, deleted.releaseContext buf.context)
      | some aa =>
        if !aa.header.checkedCast kArenaAccessMagic then (.violation, s)
        else if aa.header.installToken = ctx.installToken then
          (.done, (deleted.releaseSlot aa.arena ctx.slotId).releaseContext buf.context)
        else (.done, deleted.releaseContext buf.context)
  | _, _ => (.done, s)

omit [DecidableEq α] in
/-- The bytes of the die that a tensor access of `size` bytes names, unless a check refuses it. -/
def tensorRange (host : Host α) (ctx : BufferContext α) (data offset size : ℕ) : Option (α × Span) :=
  match ctx.basePtr with
  | none => none
  | some base =>
    let baseAddress := host.dieBase base.arena + base.offset
    if data < baseAddress then none
    else match addOverflow (data - baseAddress) offset with
      | none => none
      | some totalOffset =>
        if !rangeWithin ctx.requestedSize totalOffset size then none
        else some (base.arena, ⟨base.offset + totalOffset, size⟩)

/-- What `memset_tensor` and `set_tensor` share: `write` is the final memory operation. -/
def writeTensor (buffer : Option ℕ) (data offset size : ℕ) (write : (ℕ → Byte) → Span → ℕ → Byte) :
    Response × State host :=
  match validateBufferForWrite s buffer with
  | none => (.violation, s)
  | some none => (.done, s)
  | some (some i) =>
    let ctx := s.pool.storage i
    if ctx.basePtr.isNone then (.done, s)
    else if ctx.writeProtected ≠ 0#32 then (.done, s)
    else match tensorRange host ctx data offset size with
      | none => (.done, s)
      | some (a, span) => (.done, s.setDie a (write (s.arenas a).die span))

/-- `tensor` is the `data` field of the tensor, if the tensor is not null. -/
def memsetTensor (buffer tensor : Option ℕ) (value : Byte) (offset size : ℕ) : Response × State host :=
  match tensor with
  | none => (.done, s)
  | some data => writeTensor s buffer data offset size (fun die span => fill die span value)

/-- `source` are the bytes to store, if their pointer is not null. -/
def setTensor (buffer tensor : Option ℕ) (source : Option (List Byte)) (offset : ℕ) : Response × State host :=
  match tensor, source with
  | some data, some bytes => writeTensor s buffer data offset bytes.length (fun die span => store die span bytes)
  | _, _ => (.done, s)

omit [DecidableEq α] in
/-- The bytes that are copied to the caller, if its pointer is not null. -/
def getTensor (buffer tensor : Option ℕ) (hasTarget : Bool) (offset size : ℕ) : Response × State host :=
  match s.deref buffer, tensor, hasTarget with
  | some buf, some data, true =>
    let ctx := s.contextOf buf
    if !ctx.header.checkedCast kBufferContextMagic then (.violation, s)
    else if ctx.basePtr.isNone then (.done, s)
    else match tensorRange host ctx data offset size with
      | none => (.done, s)
      | some (a, span) => (.data (load (s.arenas a).die span), s)
  | _, _, _ => (.done, s)

def clear (buffer : Option ℕ) (value : Byte) : Response × State host :=
  match validateBufferForWrite s buffer with
  | none => (.violation, s)
  | some none => (.done, s)
  | some (some i) =>
    let ctx := s.pool.storage i
    match ctx.basePtr with
    | none => (.done, s)
    | some base =>
      if ctx.writeProtected ≠ 0#32 then (.done, s)
      else (.done, s.setDie base.arena (fill (s.arenas base.arena).die ⟨base.offset, ctx.requestedSize⟩ value))

omit [DecidableEq α] in
def sealBuffer (bridge : ℕ) (buffer : Option ℕ) : Response × State host :=
  match s.deref buffer with
  | none => (.answer false, s)
  | some buf =>
    let ctx := s.contextOf buf
    if !ctx.header.checkedCast kBufferContextMagic then (.violation, s)
    else if ctx.installToken = 0#64 then (.answer false, s)
    else match host.arenaAccess bridge with
      | none => (.answer false, s)
      | some own =>
        if ctx.installToken ≠ own.header.installToken then (.answer false, s)
        else (.answer true, s.setContext buf.context (fun ctx =>
          if ctx.writeProtected = 0#32 then { ctx with writeProtected := 1#32 } else ctx))

omit [DecidableEq α] in
def isBufferSealed (bridge : ℕ) (buffer : Option ℕ) : Response :=
  match s.deref buffer with
  | none => .answer false
  | some buf =>
    let ctx := s.contextOf buf
    if !ctx.header.checkedCast kBufferContextMagic then .violation
    else match host.arenaAccess bridge with
      | none => .answer false
      | some own =>
        if ctx.installToken ≠ own.header.installToken then .answer false
        else .answer (ctx.writeProtected ≠ 0#32)

end Callbacks

end Qtx.GgmlBridge
