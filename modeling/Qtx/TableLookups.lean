import Qtx.DecoderReads
import Qtx.GridEncoders
import Qtx.ScaledEncoders

/-!
# Table lookups

The tables of the quantizer, and the places where it looks into them. A decoder puts an
index together from bytes of the stream, so it has to be inside its table for all bytes. An
encoder looks at all entries of the tables it searches, and answers an index of theirs
whatever the distances are. Nothing else of a table matters: a block becomes the same bytes
under tables that agree where it looks.
-/
namespace Qtx.TableLookups

open Qtx.ByteStreams Qtx.FloatMachine Qtx.FpeGuard Qtx.PackedDigits Qtx.QuantizerHelpers Qtx.StreamReads
  Qtx.ScaledBlocks Qtx.ScaledEncoders Qtx.IQuants Qtx.BlockFormats Qtx.GridFields Qtx.DecoderReads

structure Tables extends Codebooks, E2m1Tables

inductive Table
  | iq2xxsGrid | iq2xsGrid | iq2sGrid | iq3xxsGrid | iq3sGrid | iq1sGrid
  | ksignsIq2xs | kmaskIq2xs | kIQ4Codebook | kNVFP4Magnitudes | kMidpoints | kTieToEven
  deriving DecidableEq

def Table.size : Table → ℕ
  | iq2xxsGrid | iq3xxsGrid => 256
  | iq2xsGrid | iq3sGrid => 512
  | iq2sGrid => 1024
  | iq1sGrid => 2048
  | ksignsIq2xs => 128
  | kmaskIq2xs | kNVFP4Magnitudes => 8
  | kIQ4Codebook => 16
  | kMidpoints | kTieToEven => 7

structure Lookup where
  table : Table
  index : ℕ

def Lookup.Inside (l : Lookup) : Prop := l.index < l.table.size

/-- All lookups inside a table. -/
def Table.entries (t : Table) : List Lookup := (List.range t.size).map (Lookup.mk t)

/-- What a lookup finds. -/
def Tables.entry (T : Tables) : Lookup → BitVec 64
  | ⟨.iq2xxsGrid, i⟩ => T.iq2xxsGrid i
  | ⟨.iq2xsGrid, i⟩ => T.iq2xsGrid i
  | ⟨.iq2sGrid, i⟩ => T.iq2sGrid i
  | ⟨.iq3xxsGrid, i⟩ => (T.iq3xxsGrid i).setWidth 64
  | ⟨.iq3sGrid, i⟩ => (T.iq3sGrid i).setWidth 64
  | ⟨.iq1sGrid, i⟩ => T.iq1sGrid i
  | ⟨.ksignsIq2xs, i⟩ => (T.ksignsIq2xs i).setWidth 64
  | ⟨.kmaskIq2xs, i⟩ => (T.kmaskIq2xs i).setWidth 64
  | ⟨.kIQ4Codebook, i⟩ => (T.kIQ4Codebook i).setWidth 64
  | ⟨.kNVFP4Magnitudes, i⟩ => (T.kNVFP4Magnitudes i).setWidth 64
  | ⟨.kMidpoints, i⟩ => (T.kMidpoints i).setWidth 64
  | ⟨.kTieToEven, i⟩ => (T.kTieToEven i).setWidth 64

/-- The tables are the same as far as they go. -/
def SameTables (T T' : Tables) : Prop := ∀ l, l.Inside → T.entry l = T'.entry l

/-- The tables of the source, but for the points of the grids. -/
def emptyTables : Tables := { emptyCodebooks, e2m1Tables with }

/-- The lookups of a decoder for element `i` of a block. -/
def blockLookups : BlockFormat → Bytes → ℕ → List Lookup
  | .iq4_NL, block, i => [⟨.kIQ4Codebook, unpackHalvesIQ4 (block.skip 2) i⟩]
  | .iq4_XS, block, i => [⟨.kIQ4Codebook, unpackHalvesIQ4 (block.skip 8) i⟩]
  | .iq2_XXS, block, i =>
    [⟨.iq2xxsGrid, gridIQ2_XXS block (i / 32) (i % 32 / 8)⟩,
      ⟨.ksignsIq2xs, unpackSigns (auxIQ2_XXS block (i / 32)) (i % 32 / 8)⟩, ⟨.kmaskIq2xs, i % 8⟩]
  | .iq2_XS, block, i =>
    [⟨.iq2xsGrid, (wordIQ2_XS block (i / 32) (i % 32 / 8)).toNat &&& 0x1FF⟩,
      ⟨.ksignsIq2xs, (wordIQ2_XS block (i / 32) (i % 32 / 8)).toNat >>> 9⟩, ⟨.kmaskIq2xs, i % 8⟩]
  | .iq2_S, block, i => [⟨.iq2sGrid, gridIQ2_S block (i / 32) (i % 32 / 8)⟩, ⟨.kmaskIq2xs, i % 8⟩]
  | .iq3_XXS, block, i =>
    [⟨.iq3xxsGrid, gridIQ3_XXS block (i / 32) (i % 32 / 4)⟩,
      ⟨.ksignsIq2xs, unpackSigns (auxIQ3_XXS block (i / 32)) (i % 32 / 8)⟩, ⟨.kmaskIq2xs, i % 8⟩]
  | .iq3_S, block, i => [⟨.iq3sGrid, gridIQ3_S block (i / 32) (i % 32 / 4)⟩, ⟨.kmaskIq2xs, i % 8⟩]
  | .iq1_S, block, i => [⟨.iq1sGrid, gridIQ1_S block (i / 32) (i % 32 / 8)⟩]
  | .iq1_M, block, i => [⟨.iq1sGrid, gridIQ1_M block (i / 32) (i % 32 / 8)⟩]
  | _, _, _ => []

/-- The lookup of a decoder of E2M1 elements, which lie behind the scale byte of their block. -/
def nibbleLookups (block : Bytes) (i : ℕ) : List Lookup :=
  [⟨.kNVFP4Magnitudes, (nibbleAt (block.skip 1) i &&& 0x07#8).toNat⟩]

/-- The tables that an encoder searches. -/
def searched : BlockFormat → List Table
  | .iq4_NL | .iq4_XS => [.kIQ4Codebook]
  | .iq2_XXS => [.iq2xxsGrid]
  | .iq2_XS => [.iq2xsGrid]
  | .iq2_S => [.iq2sGrid]
  | .iq3_XXS => [.iq3xxsGrid]
  | .iq3_S => [.iq3sGrid]
  | .iq1_S | .iq1_M => [.iq1sGrid]
  | _ => []

section Searches

variable (M : Machine) (C : Codebooks)

/-- The points that the searches of an encoder answer. -/
def searches : BlockFormat → (ℕ → BitVec 32) → BitVec 32 → List Lookup
  | .iq4_NL, target, _ | .iq4_XS, target, _ => [⟨.kIQ4Codebook, bestIndexIQ4 M C (target 0)⟩]
  | .iq2_XXS, target, _ => [⟨.iq2xxsGrid, bestGridIndexU64 M C.iq2xxsGrid 256 target⟩]
  | .iq2_XS, target, _ => [⟨.iq2xsGrid, bestGridIndexU64 M C.iq2xsGrid 512 target⟩]
  | .iq2_S, target, _ => [⟨.iq2sGrid, bestGridIndexU64 M C.iq2sGrid 1024 target⟩]
  | .iq3_XXS, target, _ => [⟨.iq3xxsGrid, bestGridIndexU32 M C.iq3xxsGrid 256 target⟩]
  | .iq3_S, target, _ => [⟨.iq3sGrid, bestGridIndexU32 M C.iq3sGrid 512 target⟩]
  | .iq1_S, target, delta | .iq1_M, target, delta => [⟨.iq1sGrid, bestGridIQ1S M C.iq1sGrid target delta⟩]
  | _, _, _ => []

end Searches

theorem forall_entries {t : Table} {P : Lookup → Prop} : (∀ l ∈ t.entries, P l) ↔ ∀ i < t.size, P ⟨t, i⟩ := by
  simp [Table.entries]

theorem entries_inside (t : Table) : ∀ l ∈ t.entries, l.Inside := forall_entries.mpr fun _ hi => hi

/-! Nothing else of the tables matters. -/

theorem setWidth_inj {w : ℕ} {x y : BitVec w} (hw : w ≤ 64) : x.setWidth 64 = y.setWidth 64 ↔ x = y := by
  refine ⟨fun h => ?_, fun h => by rw [h]⟩
  have hlow := congrArg (BitVec.setWidth w) h
  rwa [BitVec.setWidth_setWidth_of_le _ hw, BitVec.setWidth_setWidth_of_le _ hw, BitVec.setWidth_eq,
    BitVec.setWidth_eq] at hlow

theorem setWidth_inj_byte {x y : BitVec 8} : x.setWidth 64 = y.setWidth 64 ↔ x = y := setWidth_inj (by decide)

theorem setWidth_inj_word {x y : BitVec 32} : x.setWidth 64 = y.setWidth 64 ↔ x = y := setWidth_inj (by decide)

section Entries

variable {M : Machine} {T T' : Tables}

theorem gridValue_of_mask {C C' : Codebooks} {w bit : ℕ} (h : C.kmaskIq2xs bit = C'.kmaskIq2xs bit) (db : BitVec 32)
    (entry : BitVec w) (j : ℕ) (signs : BitVec 8) :
    gridValue M C db entry j signs bit = gridValue M C' db entry j signs bit := by
  rw [gridValue, gridValue, signFactor, signFactor, h]

theorem element_of_entries (f : GridFormat) {d : BitVec 32} {block : Bytes} {i : ℕ}
    (h : ∀ l ∈ blockLookups f.blockFormat block i, T.entry l = T'.entry l) :
    f.element M T.toCodebooks d (f.read block) i = f.element M T'.toCodebooks d (f.read block) i := by
  have hsplit : 32 * (i / 32) + i % 32 = i := Nat.div_add_mod i 32
  cases f
  all_goals
    simp only [GridFormat.blockFormat, blockLookups, List.forall_mem_cons, Tables.entry, setWidth_inj_byte,
      setWidth_inj_word] at h
    simp only [GridFormat.element, GridFormat.read]
  case iq2_XXS | iq2_XS | iq3_XXS =>
    obtain ⟨hgrid, hcode, hmask, -⟩ := h
    rw [hgrid, hcode, gridValue_of_mask hmask]
  case iq2_S | iq3_S =>
    obtain ⟨hgrid, hmask, -⟩ := h
    rw [hgrid, gridValue_of_mask hmask]
  case iq1_S | iq1_M => rw [h.1]
  case iq4_XS => rw [hsplit, h.1]

/-- Tables that agree at the lookups of a decoder decode a block to the same words. -/
theorem decode_of_entries (f : BlockFormat) {block : Bytes}
    (h : ∀ i < f.elements, ∀ l ∈ blockLookups f block i, T.entry l = T'.entry l) :
    Option.Rel (SameBytes (f.elements * 4)) (f.decode M T.toCodebooks block) (f.decode M T'.toCodebooks block) := by
  have hgrid : ∀ g : GridFormat, (∀ i < 256, ∀ l ∈ blockLookups g.blockFormat block i, T.entry l = T'.entry l) →
      Option.Rel (SameBytes (256 * 4)) (g.blockFormat.decode M T.toCodebooks block)
        (g.blockFormat.decode M T'.toCodebooks block) := by
    intro g hg
    rw [g.decode_eq, g.decode_eq]
    exact rel_words rfl fun i hi => element_of_entries g (hg i hi)
  cases f
  case iq4_NL =>
    refine rel_words rfl fun i hi => ?_
    have hlevel := h i hi
    simp only [blockLookups, List.forall_mem_singleton, Tables.entry, setWidth_inj_byte] at hlevel
    rw [hlevel]
  case iq4_XS => exact hgrid .iq4_XS h
  case iq2_XXS => exact hgrid .iq2_XXS h
  case iq2_XS => exact hgrid .iq2_XS h
  case iq2_S => exact hgrid .iq2_S h
  case iq3_XXS => exact hgrid .iq3_XXS h
  case iq3_S => exact hgrid .iq3_S h
  case iq1_S => exact hgrid .iq1_S h
  case iq1_M => exact hgrid .iq1_M h
  all_goals exact decode_alike _ _ _ fun _ _ => rfl

/-- Tables that agree where an encoder searches encode a block to the same bytes. -/
theorem encode_of_entries (f : BlockFormat) (block : Bytes)
    (h : ∀ t ∈ searched f, ∀ l ∈ t.entries, T.entry l = T'.entry l) :
    f.encode M T.toCodebooks block = f.encode M T'.toCodebooks block := by
  have hsame : ∀ n, SameBytes n block block := fun _ _ _ => rfl
  cases f
  all_goals dsimp only [BlockFormat.encode]
  all_goals simp only [searched, List.forall_mem_singleton, forall_entries, Table.size, Tables.entry,
    setWidth_inj_byte,
    setWidth_inj_word] at h
  case iq4_NL => exact GridReads.encodeIQ4_NL_congr h (hsame _)
  case iq4_XS => exact GridReads.encodeIQ4_XS_congr h (hsame _)
  case iq2_XXS => exact GridReads.encodeIQ2_XXS_congr h (hsame _)
  case iq2_XS => exact GridReads.encodeIQ2_XS_congr h (hsame _)
  case iq2_S => exact GridReads.encodeIQ2_S_congr h (hsame _)
  case iq3_XXS => exact GridReads.encodeIQ3_XXS_congr h (hsame _)
  case iq3_S => exact GridReads.encodeIQ3_S_congr h (hsame _)
  case iq1_S => exact GridReads.encodeIQ1_S_congr h (hsame _)
  case iq1_M => exact GridReads.encodeIQ1_M_congr h (hsame _)

theorem nibble_of_entries {block : Bytes} {i : ℕ} (h : ∀ l ∈ nibbleLookups block i, T.entry l = T'.entry l) :
    nvfp4ElementToFP32 T.toE2m1Tables (nibbleAt (block.skip 1) i) =
      nvfp4ElementToFP32 T'.toE2m1Tables (nibbleAt (block.skip 1) i) := by
  simp only [nibbleLookups, List.forall_mem_singleton, Tables.entry, setWidth_inj_word] at h
  rw [nvfp4ElementToFP32, nvfp4ElementToFP32, h]

theorem decodeMXFP4_of_entries {block : Bytes} (h : ∀ i < 32, ∀ l ∈ nibbleLookups block i, T.entry l = T'.entry l) :
    Option.Rel (SameBytes (32 * 4)) (decodeMXFP4 M T.toE2m1Tables block) (decodeMXFP4 M T'.toE2m1Tables block) := by
  simp only [decodeMXFP4]
  split_ifs
  · exact .none
  · refine .some (sameBytes_wordBytes fun i hi => ?_)
    rw [nibble_of_entries (h i hi)]

theorem decodeNVFP4_of_entries {block : Bytes} (globalScale : BitVec 32)
    (h : ∀ i < 16, ∀ l ∈ nibbleLookups block i, T.entry l = T'.entry l) :
    SameBytes (16 * 4) (decodeNVFP4 M T.toE2m1Tables globalScale block)
      (decodeNVFP4 M T'.toE2m1Tables globalScale block) := by
  rw [decodeNVFP4, decodeNVFP4]
  exact sameBytes_wordBytes fun i hi => by rw [nibble_of_entries (h i hi)]

/-- The tables that the rounding to a level goes through. -/
def midpointLookups : List Lookup := Table.kMidpoints.entries ++ Table.kTieToEven.entries

theorem fp32ElementToNVFP4Safe_of_entries (h : ∀ l ∈ midpointLookups, T.entry l = T'.entry l) (scaled : BitVec 32) :
    fp32ElementToNVFP4Safe M T.toE2m1Tables scaled = fp32ElementToNVFP4Safe M T'.toE2m1Tables scaled := by
  simp only [midpointLookups, List.forall_mem_append, forall_entries, Table.size, Tables.entry, setWidth_inj_byte,
    setWidth_inj_word] at h
  obtain ⟨hmid, heven⟩ := h
  have hscan : ∀ a n i, i + n ≤ 7 →
      midpointIndex M T.toE2m1Tables a n i = midpointIndex M T'.toE2m1Tables a n i := by
    intro a n
    induction n with
    | zero => exact fun _ _ => rfl
    | succ n ih =>
      intro i hi
      rw [midpointIndex, midpointIndex, ih (i + 1) (by omega), hmid i (by omega), heven i (by omega)]
  rw [fp32ElementToNVFP4Safe, fp32ElementToNVFP4Safe, hscan _ 7 0 le_rfl]

theorem encodeMXFP4_of_entries (h : ∀ l ∈ midpointLookups, T.entry l = T'.entry l) (block : Bytes) :
    encodeMXFP4 M T.toE2m1Tables block = encodeMXFP4 M T'.toE2m1Tables block := by
  simp only [encodeMXFP4, fp32ElementToNVFP4Safe_of_entries h]

theorem encodeNVFP4_of_entries (h : ∀ l ∈ midpointLookups, T.entry l = T'.entry l) (globalScale : BitVec 32)
    (block : Bytes) :
    encodeNVFP4 M T.toE2m1Tables globalScale block = encodeNVFP4 M T'.toE2m1Tables globalScale block := by
  simp only [encodeNVFP4, fp32ElementToNVFP4Safe_of_entries h]

end Entries

/-! The lookups are inside the tables. -/

theorem blockLookups_inside (f : BlockFormat) (block : Bytes) (i : ℕ) : ∀ l ∈ blockLookups f block i, l.Inside := by
  have hmask : i % 8 < 8 := Nat.mod_lt _ (by decide)
  cases f
  all_goals
    simp only [blockLookups, List.forall_mem_cons, List.not_mem_nil, false_imp_iff, implies_true, and_true,
      Lookup.Inside, Table.size]
  case iq4_NL | iq4_XS => exact Grid.unpackHalvesIQ4_lt _ _
  case iq2_XXS => exact ⟨Grid.index_lt .iq2_XXS block _ _, Grid.code_lt (f := .iq2_XXS) rfl block _ _, hmask⟩
  case iq2_XS => exact ⟨Grid.index_lt .iq2_XS block _ _, Grid.code_lt (f := .iq2_XS) rfl block _ _, hmask⟩
  case iq2_S => exact ⟨Grid.index_lt .iq2_S block _ _, hmask⟩
  case iq3_XXS => exact ⟨Grid.index_lt .iq3_XXS block _ _, Grid.code_lt (f := .iq3_XXS) rfl block _ _, hmask⟩
  case iq3_S => exact ⟨Grid.index_lt .iq3_S block _ _, hmask⟩
  case iq1_S => exact Grid.index_lt .iq1_S block _ _
  case iq1_M => exact Grid.index_lt .iq1_M block _ _

theorem nibbleLookups_inside (block : Bytes) (i : ℕ) : ∀ l ∈ nibbleLookups block i, l.Inside := by
  refine List.forall_mem_singleton.mpr ?_
  change (nibbleAt (block.skip 1) i &&& 0x07#8).toNat < 2 ^ 3
  rw [BitVec.toNat_and]
  exact Nat.and_lt_two_pow _ (by decide)

theorem searches_inside {M : Machine} {C : Codebooks} (f : BlockFormat) (target : ℕ → BitVec 32)
    (delta : BitVec 32) :
    ∀ l ∈ searches M C f target delta, l.Inside := by
  have hU64 : ∀ grid n, 0 < n → bestGridIndexU64 M grid n target < n :=
    fun _ _ hn => bestGridIndexU64_lt _ hn target
  have hU32 : ∀ grid n, 0 < n → bestGridIndexU32 M grid n target < n :=
    fun _ _ hn => bestGridIndexU32_lt _ hn target
  have hIQ1 : bestGridIQ1S M C.iq1sGrid target delta < 2048 := bestGridIQ1S_lt _ target delta
  have hIQ4 : bestIndexIQ4 M C (target 0) < 16 := bestIndexIQ4_lt _
  cases f
  all_goals
    simp only [searches, List.forall_mem_singleton, List.not_mem_nil, false_imp_iff, implies_true,
      Lookup.Inside, Table.size]
  case iq4_NL | iq4_XS => exact hIQ4
  case iq2_XXS => exact hU64 _ 256 (by decide)
  case iq2_XS => exact hU64 _ 512 (by decide)
  case iq2_S => exact hU64 _ 1024 (by decide)
  case iq3_XXS => exact hU32 _ 256 (by decide)
  case iq3_S => exact hU32 _ 512 (by decide)
  case iq1_S | iq1_M => exact hIQ1

end Qtx.TableLookups
