import Mathlib.Data.BitVec
import Mathlib.Tactic.Ring

/-!
# Byte streams

A pointer to bytes is the function from offsets to the bytes behind it. Words lie in
memory with the low byte first. A stream function gets a source span and a destination
span, checks their sizes and that they do not overlap, and answers the number of bytes it
wrote together with the destination as it leaves it. It computes the size of its output in
64 bits.
-/
namespace Qtx.ByteStreams

abbrev Bytes := ℕ → BitVec 8

/-- The pointer `k` bytes further on. -/
def Bytes.skip (p : Bytes) (k : ℕ) : Bytes := fun i => p (k + i)

def loadU16 (p : Bytes) : BitVec 16 := p 1 ++ p 0

def loadU32 (p : Bytes) : BitVec 32 := p 3 ++ p 2 ++ p 1 ++ p 0

/-- The bytes of a word in memory. -/
def bytesOf {w : ℕ} (x : BitVec w) : Bytes := fun k => x.extractLsb' (8 * k) 8

/-- The words of a stream. -/
def wordAt (p : Bytes) (i : ℕ) : BitVec 32 := loadU32 (p.skip (4 * i))

/-- The bytes of a sequence of words. -/
def wordBytes (v : ℕ → BitVec 32) : Bytes := fun a => bytesOf (v (a / 4)) (a % 4)

/-- Pieces of given sizes, one after the other. -/
def join : List (ℕ × Bytes) → Bytes
  | [] => fun _ => 0
  | (size, piece) :: rest => fun k => if k < size then piece k else join rest (k - size)

/-- A block of `size` bytes, stored at an offset. -/
def store (size offset : ℕ) (block dst : Bytes) : Bytes :=
  fun a => if offset ≤ a ∧ a < offset + size then block (a - offset) else dst a

/-- The loop that stores `count` blocks one after the other. -/
def tile (size : ℕ) (block : ℕ → Bytes) (dst : Bytes) : ℕ → Bytes
  | 0 => dst
  | count + 1 => store size (count * size) (block count) (tile size block dst count)

/-- The same loop with blocks that may be refused, which ends it. -/
def tileWhile (size : ℕ) (block : ℕ → Option Bytes) (dst : Bytes) : ℕ → Bytes × Bool
  | 0 => (dst, true)
  | count + 1 =>
    let (written, accepted) := tileWhile size block dst count
    if accepted then
      match block count with
      | some bytes => (store size (count * size) bytes written, true)
      | none => (written, false)
    else (written, false)

/-- The bytes from an offset on are written by `f`. -/
def writeAt (offset : ℕ) (f : Bytes → Bytes) (dst : Bytes) : Bytes :=
  fun a => if a < offset then dst a else f (dst.skip offset) (a - offset)

structure Call where
  src : Bytes
  srcSize : ℕ
  srcData : ℕ
  dst : Bytes
  dstSize : ℕ
  dstData : ℕ

def spansOverlap (a aLen b bLen : ℕ) : Bool := if a ≤ b then a + aLen > b else b + bLen > a

namespace Call

/-- The checks of a stream function before it works on `n` units. -/
def checked (c : Call) (inBytes outBytes : ℕ) (body : ℕ → ℕ × Bytes) : ℕ × Bytes :=
  if c.srcSize % inBytes ≠ 0 then (0, c.dst)
  else
    let n := c.srcSize / inBytes
    let needBytes := n * outBytes % 2 ^ 64
    if c.dstSize < needBytes then (0, c.dst)
    else if spansOverlap c.srcData c.srcSize c.dstData needBytes then (0, c.dst)
    else body n

/-- Every block of the source gives one block of the destination. -/
def encodeBlocks (c : Call) (inBytes outBytes : ℕ) (encode : Bytes → Bytes) : ℕ × Bytes :=
  c.checked inBytes outBytes (fun n =>
    (n * outBytes % 2 ^ 64, tile outBytes (fun b => encode (c.src.skip (b * inBytes))) c.dst n))

/-- The same with a decoder that can reject a block, which makes the call return 0. -/
def decodeBlocks (c : Call) (inBytes outBytes : ℕ) (decode : Bytes → Option Bytes) : ℕ × Bytes :=
  c.checked inBytes outBytes (fun n =>
    let (written, accepted) := tileWhile outBytes (fun b => decode (c.src.skip (b * inBytes))) c.dst n
    (if accepted then n * outBytes % 2 ^ 64 else 0, written))

/-- The checks pass for `n` units, the output of which has a size in 64 bits. -/
structure Fits (c : Call) (inBytes outBytes n : ℕ) : Prop where
  srcSize : c.srcSize = n * inBytes
  dstSize : n * outBytes ≤ c.dstSize
  sized : n * outBytes < 2 ^ 64
  apart : spansOverlap c.srcData c.srcSize c.dstData (n * outBytes) = false

end Call

theorem loadU16_bytesOf (x : BitVec 16) : loadU16 (bytesOf x) = x := by
  apply BitVec.eq_of_getLsbD_eq
  intro i hi
  simp only [loadU16, bytesOf, BitVec.getLsbD_append, BitVec.getLsbD_extractLsb']
  by_cases h : i < 8
  · simp [h]
  · have hlt : i - 8 < 8 := by omega
    have hsum : 8 + (i - 8) = i := by omega
    simp [h, hlt, hsum]

theorem loadU32_bytesOf (x : BitVec 32) : loadU32 (bytesOf x) = x := by
  apply BitVec.eq_of_getLsbD_eq
  intro i hi
  simp only [loadU32, bytesOf, BitVec.getLsbD_append, BitVec.getLsbD_extractLsb']
  by_cases h1 : i < 8
  · simp [h1]
  · by_cases h2 : i < 16
    · have hlt : i - 8 < 8 := by omega
      have hsum : 8 + (i - 8) = i := by omega
      simp [h1, hlt, hsum]
    · by_cases h3 : i < 24
      · have hge : ¬ i - 8 < 8 := by omega
        have hlt : i - 8 - 8 < 8 := by omega
        have hsum : 16 + (i - 8 - 8) = i := by omega
        simp [h1, hge, hlt, hsum]
      · have hge : ¬ i - 8 < 8 := by omega
        have hge' : ¬ i - 8 - 8 < 8 := by omega
        have hlt : i - 8 - 8 - 8 < 8 := by omega
        have hsum : 24 + (i - 8 - 8 - 8) = i := by omega
        simp [h1, hge, hge', hlt, hsum]

theorem bytesOf_loadU16 (p : Bytes) {k : ℕ} (hk : k < 2) : bytesOf (loadU16 p) k = p k := by
  obtain rfl | rfl : k = 0 ∨ k = 1 := by omega
  · exact BitVec.extractLsb'_append_eq_right
  · exact BitVec.extractLsb'_append_eq_left

theorem bytesOf_loadU32 (p : Bytes) {k : ℕ} (hk : k < 4) : bytesOf (loadU32 p) k = p k := by
  rw [bytesOf, loadU32]
  obtain rfl | rfl | rfl | rfl : k = 0 ∨ k = 1 ∨ k = 2 ∨ k = 3 := by omega
  · exact BitVec.extractLsb'_append_eq_right
  · rw [BitVec.extractLsb'_append_eq_of_le (by decide)]
    exact BitVec.extractLsb'_append_eq_right
  · rw [BitVec.extractLsb'_append_eq_of_le (by decide), BitVec.extractLsb'_append_eq_of_le (by decide)]
    exact BitVec.extractLsb'_append_eq_right
  · rw [BitVec.extractLsb'_append_eq_of_le (by decide), BitVec.extractLsb'_append_eq_of_le (by decide)]
    exact BitVec.extractLsb'_append_eq_left

theorem loadU16_congr {p q : Bytes} (h : ∀ k < 2, p k = q k) : loadU16 p = loadU16 q := by
  rw [loadU16, loadU16, h 0 (by decide), h 1 (by decide)]

theorem loadU32_congr {p q : Bytes} (h : ∀ k < 4, p k = q k) : loadU32 p = loadU32 q := by
  rw [loadU32, loadU32, h 0 (by decide), h 1 (by decide), h 2 (by decide), h 3 (by decide)]

theorem loadU16_eq {p : Bytes} {x : BitVec 16} (h : ∀ k < 2, p k = bytesOf x k) : loadU16 p = x :=
  (loadU16_congr h).trans (loadU16_bytesOf x)

theorem loadU32_eq {p : Bytes} {x : BitVec 32} (h : ∀ k < 4, p k = bytesOf x k) : loadU32 p = x :=
  (loadU32_congr h).trans (loadU32_bytesOf x)

@[simp] theorem skip_apply (p : Bytes) (k i : ℕ) : p.skip k i = p (k + i) := rfl

theorem wordAt_wordBytes (v : ℕ → BitVec 32) (i : ℕ) : wordAt (wordBytes v) i = v i := by
  have hbytes : ∀ k < 4, (wordBytes v).skip (4 * i) k = bytesOf (v i) k := by
    intro k hk
    have hdiv : (4 * i + k) / 4 = i := by omega
    have hmod : (4 * i + k) % 4 = k := by omega
    rw [skip_apply, wordBytes, hdiv, hmod]
  rw [wordAt, loadU32_eq hbytes]

theorem join_apply {size k : ℕ} (piece : Bytes) (rest : List (ℕ × Bytes)) (hk : k < size) :
    join ((size, piece) :: rest) k = piece k := if_pos hk

theorem join_skip {size k : ℕ} (piece : Bytes) (rest : List (ℕ × Bytes)) (hk : size ≤ k) :
    (join ((size, piece) :: rest)).skip k = (join rest).skip (k - size) := by
  funext a
  have hge : ¬ k + a < size := by omega
  have hsum : k + a - size = k - size + a := by omega
  simp only [skip_apply, join, hge, if_false, hsum]

@[simp] theorem skip_zero (p : Bytes) : p.skip 0 = p := by
  funext a
  rw [skip_apply, Nat.zero_add]

theorem join_skip_self {size : ℕ} (piece : Bytes) (rest : List (ℕ × Bytes)) :
    (join ((size, piece) :: rest)).skip size = join rest := by
  rw [join_skip piece rest le_rfl, Nat.sub_self, skip_zero]

theorem join_add {size : ℕ} (piece : Bytes) (rest : List (ℕ × Bytes)) (k : ℕ) :
    join ((size, piece) :: rest) (size + k) = join rest k :=
  congrFun (join_skip_self piece rest) k

theorem skip_skip (p : Bytes) (j k : ℕ) : (p.skip j).skip k = p.skip (j + k) := by
  funext a
  simp only [skip_apply, Nat.add_assoc]

/-- Bytes that start with the pieces, one after the other. -/
def Spells : Bytes → List (ℕ × Bytes) → Prop
  | _, [] => True
  | p, (size, piece) :: rest => (∀ k < size, p k = piece k) ∧ Spells (p.skip size) rest

theorem spells_iff (p : Bytes) (pieces : List (ℕ × Bytes)) :
    Spells p pieces ↔ ∀ k < (pieces.map Prod.fst).sum, p k = join pieces k := by
  induction pieces generalizing p with
  | nil => exact iff_of_true trivial (fun k hk => absurd hk (Nat.not_lt_zero k))
  | cons head rest ih =>
    obtain ⟨size, piece⟩ := head
    have hsum : (((size, piece) :: rest).map Prod.fst).sum = size + (rest.map Prod.fst).sum := by simp
    rw [Spells, ih, hsum]
    constructor
    · rintro ⟨hpiece, hrest⟩ k hk
      by_cases hlt : k < size
      · rw [join_apply _ _ hlt, hpiece k hlt]
      · have hsub : size + (k - size) = k := by omega
        have htail := hrest (k - size) (by omega)
        rw [← join_skip_self piece rest, skip_apply, skip_apply, hsub] at htail
        exact htail
    · intro h
      refine ⟨fun k hk => ?_, fun k hk => ?_⟩
      · rw [h k (by omega), join_apply _ _ hk]
      · rw [skip_apply, h (size + k) (by omega), ← join_skip_self piece rest, skip_apply]

theorem join_congr {size : ℕ} {piece piece' : Bytes} {rest rest' : List (ℕ × Bytes)}
    (hpiece : ∀ k < size, piece' k = piece k) (hrest : join rest' = join rest) :
    join ((size, piece') :: rest') = join ((size, piece) :: rest) := by
  funext k
  by_cases hk : k < size
  · rw [join_apply _ _ hk, join_apply _ _ hk, hpiece k hk]
  · simp only [join, if_neg hk, hrest]

theorem loadU16_join (x : BitVec 16) (rest : List (ℕ × Bytes)) : loadU16 (join ((2, bytesOf x) :: rest)) = x :=
  loadU16_eq (fun _ hk => join_apply _ rest hk)

theorem store_apply {size offset k : ℕ} (block dst : Bytes) (hk : k < size) :
    store size offset block dst (offset + k) = block k := by
  rw [store, if_pos ⟨Nat.le_add_right _ _, Nat.add_lt_add_left hk _⟩, Nat.add_sub_cancel_left]

theorem store_below {size offset a : ℕ} (block dst : Bytes) (ha : a < offset) :
    store size offset block dst a = dst a :=
  if_neg (fun h => absurd h.1 (Nat.not_le.mpr ha))

theorem store_above {size offset a : ℕ} (block dst : Bytes) (ha : offset + size ≤ a) :
    store size offset block dst a = dst a :=
  if_neg (fun h => absurd h.2 (Nat.not_lt.mpr ha))

theorem block_end {b count : ℕ} (size : ℕ) (hb : b < count) : b * size + size ≤ count * size := by
  have hle := Nat.mul_le_mul_right size (Nat.succ_le_of_lt hb)
  rwa [Nat.succ_mul] at hle

/-- Every byte of every block is the one its encoder gave. -/
theorem tile_apply {size count b k : ℕ} (block : ℕ → Bytes) (dst : Bytes) (hb : b < count) (hk : k < size) :
    tile size block dst count (b * size + k) = block b k := by
  induction count with
  | zero => exact absurd hb (Nat.not_lt_zero b)
  | succ count ih =>
    rcases Nat.eq_or_lt_of_le (Nat.le_of_lt_succ hb) with rfl | hlt
    · exact store_apply _ _ hk
    · have hend := block_end size hlt
      rw [tile, store_below _ _ (by omega), ih hlt]

theorem store_congr {size offset : ℕ} {block block' : Bytes} (dst : Bytes) (h : ∀ k < size, block' k = block k) :
    store size offset block' dst = store size offset block dst := by
  funext a
  unfold store
  split_ifs with ha
  · exact h _ (by omega)
  · rfl

theorem tile_congr {size count : ℕ} {block block' : ℕ → Bytes} (dst : Bytes)
    (h : ∀ b < count, ∀ k < size, block' b k = block b k) :
    tile size block' dst count = tile size block dst count := by
  induction count with
  | zero => rfl
  | succ count ih =>
    rw [tile, tile, ih fun b hb => h b (Nat.lt_succ_of_lt hb)]
    exact store_congr _ (h count (Nat.lt_succ_self count))

/-- Every word of every block of `k` words. -/
theorem wordAt_tile {k count b i : ℕ} (block : ℕ → Bytes) (dst : Bytes) (hb : b < count) (hi : i < k) :
    wordAt (tile (k * 4) block dst count) (b * k + i) = wordAt (block b) i := by
  apply loadU32_congr
  intro j hj
  have hoffset : 4 * (b * k + i) + j = b * (k * 4) + (4 * i + j) := by ring
  rw [skip_apply, skip_apply, hoffset]
  exact tile_apply _ _ hb (by omega)

/-- The bytes behind the last block stay. -/
theorem tile_of_le {size count a : ℕ} (block : ℕ → Bytes) (dst : Bytes) (ha : count * size ≤ a) :
    tile size block dst count a = dst a := by
  induction count with
  | zero => rfl
  | succ count ih =>
    rw [Nat.succ_mul] at ha
    rw [tile, store_above _ _ ha, ih (by omega)]

/-- The loop runs to its end if and only if no block is refused. -/
theorem tileWhile_accepted (size : ℕ) (block : ℕ → Option Bytes) (dst : Bytes) (count : ℕ) :
    (tileWhile size block dst count).2 = true ↔ ∀ b < count, (block b).isSome = true := by
  induction count with
  | zero => exact ⟨fun _ b hb => absurd hb (Nat.not_lt_zero b), fun _ => rfl⟩
  | succ count ih =>
    rw [Nat.forall_lt_succ_right, ← ih, tileWhile]
    cases htail : (tileWhile size block dst count).2 with
    | false => simp [htail]
    | true => cases hblock : block count <;> simp [htail]

/-- Without a refused block it is the plain loop. -/
theorem tileWhile_eq_tile {size count : ℕ} {block : ℕ → Option Bytes} {bytes : ℕ → Bytes} (dst : Bytes)
    (h : ∀ b < count, block b = some (bytes b)) :
    tileWhile size block dst count = (tile size bytes dst count, true) := by
  induction count with
  | zero => rfl
  | succ count ih =>
    rw [tileWhile, ih fun b hb => h b (Nat.lt_succ_of_lt hb)]
    dsimp only
    rw [if_pos rfl, h count (Nat.lt_succ_self count), tile]

namespace Call

variable {c : Call} {inBytes outBytes n : ℕ}

theorem checked_of_checks (body : ℕ → ℕ × Bytes) (hunits : c.srcSize % inBytes = 0)
    (hroom : c.srcSize / inBytes * outBytes % 2 ^ 64 ≤ c.dstSize)
    (hapart : spansOverlap c.srcData c.srcSize c.dstData (c.srcSize / inBytes * outBytes % 2 ^ 64) = false) :
    c.checked inBytes outBytes body = body (c.srcSize / inBytes) := by
  simp only [checked, hunits, ne_eq, not_true_eq_false, if_false, Nat.not_lt.mpr hroom, hapart, Bool.false_eq_true]

/-- A call passes the checks, or it answers 0 and leaves the destination as it is. -/
theorem checked_cases (c : Call) (inBytes outBytes : ℕ) (body : ℕ → ℕ × Bytes) : (c.srcSize % inBytes = 0 ∧
    c.srcSize / inBytes * outBytes % 2 ^ 64 ≤ c.dstSize ∧
    spansOverlap c.srcData c.srcSize c.dstData (c.srcSize / inBytes * outBytes % 2 ^ 64) = false) ∨
    c.checked inBytes outBytes body = (0, c.dst) := by
  rw [checked]
  dsimp only
  split_ifs with hunits hroom hapart
  · exact .inr rfl
  · exact .inr rfl
  · exact .inr rfl
  · exact .inl ⟨not_ne_iff.mp hunits, Nat.not_lt.mp hroom, Bool.eq_false_iff.mpr hapart⟩

theorem checked_nothing (c : Call) (inBytes : ℕ) : c.checked inBytes 0 (fun _ => (0, c.dst)) = (0, c.dst) := by
  unfold checked
  dsimp only
  split_ifs <;> rfl

theorem checked_of_fits (h : c.Fits inBytes outBytes n) (hpos : 0 < inBytes) (body : ℕ → ℕ × Bytes) :
    c.checked inBytes outBytes body = body n := by
  have hdiv : c.srcSize / inBytes = n := by rw [h.srcSize, Nat.mul_div_cancel _ hpos]
  have hsized := Nat.mod_eq_of_lt h.sized
  subst hdiv
  refine checked_of_checks body ?_ ?_ ?_
  · rw [h.srcSize, Nat.mul_mod_left]
  · rw [hsized]
    exact h.dstSize
  · rw [hsized]
    exact h.apart

theorem wordAt_encodeBlocks {encode : Bytes → Bytes} {k b i : ℕ} (h : c.Fits inBytes (k * 4) n) (hpos : 0 < inBytes)
    (hb : b < n) (hi : i < k) :
    wordAt (c.encodeBlocks inBytes (k * 4) encode).2 (b * k + i) =
    wordAt (encode (c.src.skip (b * inBytes))) i := by
  rw [encodeBlocks, checked_of_fits h hpos]
  exact wordAt_tile _ _ hb hi

theorem decodeBlocks_accepts {decode : Bytes → Option Bytes} {bytes : ℕ → Bytes} (h : c.Fits inBytes outBytes n)
    (hpos : 0 < inBytes) (hsome : ∀ b < n, decode (c.src.skip (b * inBytes)) = some (bytes b)) :
    c.decodeBlocks inBytes outBytes decode = (n * outBytes, tile outBytes bytes c.dst n) := by
  rw [decodeBlocks, checked_of_fits h hpos]
  dsimp only
  rw [tileWhile_eq_tile _ hsome, if_pos rfl, Nat.mod_eq_of_lt h.sized]

/-- One rejected block makes the call return 0. -/
theorem decodeBlocks_rejects {decode : Bytes → Option Bytes} {b : ℕ} (h : c.Fits inBytes outBytes n)
    (hpos : 0 < inBytes) (hb : b < n) (hnone : decode (c.src.skip (b * inBytes)) = none) :
    (c.decodeBlocks inBytes outBytes decode).1 = 0 := by
  rw [decodeBlocks, checked_of_fits h hpos]
  dsimp only
  apply if_neg
  intro haccepted
  have hsome := (tileWhile_accepted _ _ _ _).mp haccepted b hb
  rw [hnone] at hsome
  exact absurd hsome Bool.false_ne_true

end Call

end Qtx.ByteStreams
