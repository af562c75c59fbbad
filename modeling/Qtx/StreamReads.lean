import Qtx.ByteStreams
import Mathlib.Data.Option.Basic

/-!
# What a stream function reads and writes

A pointer is total, so a read outside its span shows as an outcome that depends on what
lies there. Two functions read alike if they give the same bytes on sources that agree
as far as the span goes. The loops over blocks inherit this from the blocks, and write
nothing behind the last block.
-/
namespace Qtx.StreamReads

open Qtx.ByteStreams

/-- The same bytes as far as `n`. -/
def SameBytes (n : ℕ) (p q : Bytes) : Prop := ∀ k < n, p k = q k

section SameBytes

variable {m n i j : ℕ} {p q : Bytes}

theorem SameBytes.mono (h : SameBytes n p q) (hle : m ≤ n) : SameBytes m p q :=
  fun k hk => h k (Nat.lt_of_lt_of_le hk hle)

theorem SameBytes.skip (h : SameBytes n p q) (hle : j + m ≤ n) : SameBytes m (p.skip j) (q.skip j) :=
  fun k hk => h (j + k) (by omega)

theorem SameBytes.loadU16_eq (h : SameBytes n p q) (hle : 2 ≤ n) : loadU16 p = loadU16 q :=
  loadU16_congr (h.mono hle)

theorem SameBytes.loadU32_eq (h : SameBytes n p q) (hle : 4 ≤ n) : loadU32 p = loadU32 q :=
  loadU32_congr (h.mono hle)

theorem SameBytes.wordAt_eq (h : SameBytes n p q) (hle : 4 * i + 4 ≤ n) : wordAt p i = wordAt q i :=
  (h.skip hle).loadU32_eq le_rfl

/-- Words that are the same lie in memory as the same bytes. -/
theorem sameBytes_wordBytes {v w : ℕ → BitVec 32} (h : ∀ i < n, v i = w i) :
    SameBytes (n * 4) (wordBytes v) (wordBytes w) := by
  intro k hk
  rw [wordBytes, wordBytes, h (k / 4) (by omega)]

end SameBytes

/-- On blocks with the same first `inBytes` bytes, two encoders give the same first `outBytes` bytes. -/
def Alike (inBytes outBytes : ℕ) (f g : Bytes → Bytes) : Prop :=
  ∀ p q, SameBytes inBytes p q → SameBytes outBytes (f p) (g q)

/-- The same for decoders, which also reject the same blocks. -/
def AlikeOption (inBytes outBytes : ℕ) (f g : Bytes → Option Bytes) : Prop :=
  ∀ p q, SameBytes inBytes p q → Option.Rel (SameBytes outBytes) (f p) (g q)

/-- Decoders that reject by the same test and decode the same words. -/
theorem rel_words {rejects rejects' : Bool} {v w : ℕ → BitVec 32} {n : ℕ} (ht : rejects = rejects')
    (h : ∀ i < n, v i = w i) : Option.Rel (SameBytes (n * 4)) (if rejects then none else some (wordBytes v))
      (if rejects' then none else some (wordBytes w)) := by
  subst ht
  cases rejects with
  | true => exact .none
  | false => exact .some (sameBytes_wordBytes h)

/-! Loops over the units of a stream. -/

/-- A loop gets the source, the destination and the number of units. -/
abbrev Loop := Bytes → Bytes → ℕ → ℕ × Bytes

/-- On sources with the same units, two loops do the same. -/
def ReadsAlike (inBytes : ℕ) (body body' : Loop) : Prop :=
  ∀ src src' dst n, SameBytes (n * inBytes) src src' → body src dst n = body' src' dst n

/-- A loop writes nothing behind its units, and answers their size or 0. -/
structure Contained (outBytes : ℕ) (body : Loop) : Prop where
  above : ∀ src dst n a, n * outBytes ≤ a → (body src dst n).2 a = dst a
  count : ∀ src dst n, n * outBytes < 2 ^ 64 → (body src dst n).1 = 0 ∨ (body src dst n).1 = n * outBytes

def encodeLoop (inBytes outBytes : ℕ) (encode : Bytes → Bytes) : Loop := fun src dst n =>
  (n * outBytes % 2 ^ 64, tile outBytes (fun b => encode (src.skip (b * inBytes))) dst n)

def decodeLoop (inBytes outBytes : ℕ) (decode : Bytes → Option Bytes) : Loop := fun src dst n =>
  let (written, accepted) := tileWhile outBytes (fun b => decode (src.skip (b * inBytes))) dst n
  (if accepted then n * outBytes % 2 ^ 64 else 0, written)

section Loops

variable {inBytes outBytes : ℕ}

theorem block_same {n b : ℕ} {src src' : Bytes} (h : SameBytes (n * inBytes) src src') (hb : b < n) :
    SameBytes inBytes (src.skip (b * inBytes)) (src'.skip (b * inBytes)) :=
  h.skip (block_end inBytes hb)

/-- A loop that writes one piece for every unit. -/
theorem readsAlike_tile {piece piece' : Bytes → ℕ → Bytes}
    (h : ∀ src src' n b, SameBytes (n * inBytes) src src' → b < n →
      SameBytes outBytes (piece src b) (piece' src' b)) :
    ReadsAlike inBytes (fun src dst n => (n * outBytes % 2 ^ 64, tile outBytes (piece src) dst n))
      (fun src dst n => (n * outBytes % 2 ^ 64, tile outBytes (piece' src) dst n)) := by
  intro src src' dst n hsame
  have htile := tile_congr dst fun b hb k hk => h src src' n b hsame hb k hk
  dsimp only
  rw [htile]

theorem contained_tile (piece : Bytes → ℕ → Bytes) :
    Contained outBytes (fun src dst n => (n * outBytes % 2 ^ 64, tile outBytes (piece src) dst n)) where
  above _ dst _ _ ha := tile_of_le _ dst ha
  count _ _ _ hn := .inr (Nat.mod_eq_of_lt hn)

theorem readsAlike_encodeLoop {f g : Bytes → Bytes} (h : Alike inBytes outBytes f g) :
    ReadsAlike inBytes (encodeLoop inBytes outBytes f) (encodeLoop inBytes outBytes g) :=
  readsAlike_tile fun _ _ _ _ hsame hb => h _ _ (block_same hsame hb)

theorem contained_encodeLoop (encode : Bytes → Bytes) : Contained outBytes (encodeLoop inBytes outBytes encode) :=
  contained_tile _

theorem tileWhile_congr {size count : ℕ} {block block' : ℕ → Option Bytes} (dst : Bytes)
    (h : ∀ b < count, Option.Rel (SameBytes size) (block b) (block' b)) :
    tileWhile size block dst count = tileWhile size block' dst count := by
  induction count with
  | zero => rfl
  | succ count ih =>
    rw [tileWhile, tileWhile, ih fun b hb => h b (Nat.lt_succ_of_lt hb)]
    dsimp only
    split_ifs
    · have hlast := h count (Nat.lt_succ_self count)
      cases hblock : block count with
      | none =>
        rw [hblock] at hlast
        cases hblock' : block' count with
        | none => rfl
        | some bytes => rw [hblock'] at hlast; cases hlast
      | some bytes =>
        rw [hblock] at hlast
        cases hblock' : block' count with
        | none => rw [hblock'] at hlast; cases hlast
        | some bytes' =>
          rw [hblock'] at hlast
          obtain ⟨hbytes⟩ := hlast
          dsimp only
          rw [store_congr _ hbytes]
    · rfl

/-- The bytes behind the last block stay. -/
theorem tileWhile_of_le {size count a : ℕ} (block : ℕ → Option Bytes) (dst : Bytes) (ha : count * size ≤ a) :
    (tileWhile size block dst count).1 a = dst a := by
  induction count with
  | zero => rfl
  | succ count ih =>
    rw [Nat.succ_mul] at ha
    have htail := ih (by omega)
    rw [tileWhile]
    dsimp only
    split_ifs
    · cases block count with
      | none => exact htail
      | some bytes => exact (store_above _ _ ha).trans htail
    · exact htail

theorem readsAlike_decodeLoop {f g : Bytes → Option Bytes} (h : AlikeOption inBytes outBytes f g) :
    ReadsAlike inBytes (decodeLoop inBytes outBytes f) (decodeLoop inBytes outBytes g) := by
  intro src src' dst n hsame
  rw [decodeLoop, decodeLoop, tileWhile_congr dst fun b hb => h _ _ (block_same hsame hb)]

theorem contained_decodeLoop (decode : Bytes → Option Bytes) :
    Contained outBytes (decodeLoop inBytes outBytes decode) where
  above _ dst _ _ ha := tileWhile_of_le _ dst ha
  count src dst n hn := by
    rw [decodeLoop]
    dsimp only
    split_ifs
    · exact .inr (Nat.mod_eq_of_lt hn)
    · exact .inl rfl

end Loops

/-- A loop that neither reads nor writes outside its units. -/
structure Bounded (inBytes outBytes : ℕ) (body : Loop) : Prop where
  reads : ReadsAlike inBytes body body
  contained : Contained outBytes body

theorem bounded_tile {inBytes outBytes : ℕ} {piece : Bytes → ℕ → Bytes}
    (h : ∀ src src' n b, SameBytes (n * inBytes) src src' →
      b < n → SameBytes outBytes (piece src b) (piece src' b)) :
    Bounded inBytes outBytes (fun src dst n => (n * outBytes % 2 ^ 64, tile outBytes (piece src) dst n)) :=
  ⟨readsAlike_tile h, contained_tile piece⟩

theorem bounded_encodeLoop {inBytes outBytes : ℕ} {encode : Bytes → Bytes}
    (h : Alike inBytes outBytes encode encode) :
    Bounded inBytes outBytes (encodeLoop inBytes outBytes encode) :=
  ⟨readsAlike_encodeLoop h, contained_encodeLoop encode⟩

/-- Chunks of `size` units, and the rest in another loop. -/
def chunkLoop (size inBytes outBytes : ℕ) (chunk : Bytes → Bytes) (rest : Loop) : Loop := fun src dst n =>
  let i := n / size * size
  let written := tile (size * outBytes) (fun c => chunk (src.skip (c * (size * inBytes)))) dst (n / size)
  (n * outBytes % 2 ^ 64, if i < n then
      writeAt (i * outBytes) (fun out => (rest (src.skip (i * inBytes)) out (n - i)).2) written
    else written)

theorem bounded_chunkLoop (size : ℕ) {inBytes outBytes : ℕ} {chunk : Bytes → Bytes} {rest : Loop}
    (hchunk : Alike (size * inBytes) (size * outBytes) chunk chunk) (hrest : Bounded inBytes outBytes rest) :
    Bounded inBytes outBytes (chunkLoop size inBytes outBytes chunk rest) := by
  have hle : ∀ n, n / size * size ≤ n := fun n => Nat.div_mul_le_self n size
  refine ⟨fun src src' dst n hsame => ?_, fun src dst n a ha => ?_, fun _ _ _ hn => .inr (Nat.mod_eq_of_lt hn)⟩
  · have hchunks : tile (size * outBytes) (fun c => chunk (src.skip (c * (size * inBytes)))) dst (n / size) =
        tile (size * outBytes) (fun c => chunk (src'.skip (c * (size * inBytes)))) dst (n / size) := by
      have hall : n / size * (size * inBytes) ≤ n * inBytes := by
        rw [← Nat.mul_assoc]
        exact Nat.mul_le_mul_right inBytes (hle n)
      exact tile_congr dst fun c hc k hk => hchunk _ _ (block_same (hsame.mono hall) hc) k hk
    have htail : SameBytes ((n - n / size * size) * inBytes) (src.skip (n / size * size * inBytes))
        (src'.skip (n / size * size * inBytes)) := by
      refine hsame.skip ?_
      rw [← Nat.add_mul, Nat.add_sub_cancel' (hle n)]
    have hscalar : ∀ out, rest (src.skip (n / size * size * inBytes)) out (n - n / size * size) =
        rest (src'.skip (n / size * size * inBytes)) out (n - n / size * size) :=
      fun out => hrest.reads _ _ out _ htail
    simp only [chunkLoop, hchunks, hscalar]
  · have hchunks : tile (size * outBytes) (fun c => chunk (src.skip (c * (size * inBytes)))) dst (n / size)
      a = dst a := by
      refine tile_of_le _ dst (le_trans ?_ ha)
      rw [← Nat.mul_assoc]
      exact Nat.mul_le_mul_right outBytes (hle n)
    dsimp only [chunkLoop]
    split_ifs
    · have hstart : n / size * size * outBytes ≤ n * outBytes := Nat.mul_le_mul_right outBytes (hle n)
      have hrestSize : (n - n / size * size) * outBytes ≤ a - n / size * size * outBytes := by
        rw [Nat.sub_mul]
        omega
      have habove := hrest.contained.above (src.skip (n / size * size * inBytes))
        ((tile (size * outBytes) (fun c => chunk (src.skip (c * (size * inBytes)))) dst (n / size)).skip
          (n / size * size * outBytes)) _ _ hrestSize
      have hsum : n / size * size * outBytes + (a - n / size * size * outBytes) = a := by omega
      rw [writeAt, if_neg (by omega), habove, skip_apply, hsum, hchunks]
    · exact hchunks

end Qtx.StreamReads
