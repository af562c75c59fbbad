import Qtx.CodecBodies

/-!
# The bounds of a codec call

The size of the output is computed in 64 bits, so it wraps for the decoders whose output is
more than eight times as long as their source, and a destination that is too short passes
the check.
-/
namespace Qtx.CodecBounds

open Qtx.ByteStreams Qtx.ColdCodecs Qtx.ElementStreams Qtx.FloatMachine Qtx.FpeGuard Qtx.ScaledBlocks
  Qtx.ScaledEncoders Qtx.IQuants Qtx.BlockFormats Qtx.StreamReads Qtx.LevelReads Qtx.KernelReads Qtx.TableLookups
  Qtx.VectorBackends

namespace Codec

variable (b : Build) (M : Machine) (T : Tables)

/-- A codec stays in the spans and in its tables, whatever the bytes are. -/
structure StaysInBounds (op : Codec) (s : Spans) : Prop where
  /-- What lies behind the source or behind the last entry of a table has no effect. -/
  reads : ∀ T', SameTables T T' → ∀ src src' dst, SameBytes s.srcSize src src' →
    op.run b M T (s.call src dst) = op.run b M T' (s.call src' dst)
  writes : ∀ src dst a, (op.run b M T (s.call src dst)).2 a ≠ dst a →
    a < op.outputSize s.srcSize ∧ op.outputSize s.srcSize ≤ s.dstSize
  lookups : ∀ src l, op.LooksUp s src l → l.Inside
  /-- The call looks nowhere else. -/
  complete : ∀ T' src dst, (∀ l, op.LooksUp s src l → T.entry l = T'.entry l) →
    op.run b M T (s.call src dst) = op.run b M T' (s.call src dst)
  found : ∀ target delta, ∀ l ∈ op.found M T target delta, l.Inside
  refused : op.Refuses s → ∀ src dst, op.run b M T (s.call src dst) = (0, dst)
  result : ∀ src dst, (op.run b M T (s.call src dst)).1 ≠ 0 →
    (op.run b M T (s.call src dst)).1 = op.outputSize s.srcSize

/-- The size of the output wraps, and the checks pass with what is left of it. -/
structure Overruns (op : Codec) (s : Spans) : Prop extends op.Passes s where
  wraps : 2 ^ 64 ≤ op.outputSize s.srcSize

section Wide

variable {op : Codec} {s : Spans}

/-- The formats whose blocks grow more than eightfold. -/
def wideFormats : List BlockFormat :=
  [.q2_K, .q3_K, .iq2_XXS, .iq2_XS, .iq2_S, .iq3_XXS, .iq3_S, .iq1_S, .iq1_M]

theorem outBytes_le (op : Codec) :
    (∃ f ∈ wideFormats, op = decompress (.block f)) ∨ op.outBytes ≤ 8 * op.inBytes := by
  rcases op with (fmt | - | - | f) | (fmt | - | - | f)
  case decompress.block =>
    cases f
    case q2_K | q3_K | iq2_XXS | iq2_XS | iq2_S | iq3_XXS | iq3_S | iq1_S | iq1_M => exact .inl ⟨_, by decide, rfl⟩
    all_goals exact .inr (by decide)
  case compress.block => exact .inr (by cases f <;> decide)
  case compress.quant | decompress.quant => exact .inr (by cases fmt <;> decide)
  all_goals exact .inr (by decide)

theorem elements_wide {f : BlockFormat} (hf : f ∈ wideFormats) : f.elements = 256 := by
  revert hf
  cases f <;> decide

theorem units_le (op : Codec) (n : ℕ) : op.units n * op.inBytes ≤ n :=
  le_trans (Nat.div_mul_le_self _ _) (Nat.sub_le _ _)

/-- Only the decoders of these formats overrun, from 2^54 blocks on. -/
theorem Overruns.wide (h : op.Overruns s) :
    ∃ f ∈ wideFormats, op = decompress (.block f) ∧ 2 ^ 54 ≤ s.srcSize / f.blockBytes := by
  have hwraps := h.wraps
  rw [outputSize] at hwraps
  rcases op.outBytes_le with ⟨f, hf, rfl⟩ | hle
  · refine ⟨f, hf, rfl, ?_⟩
    change 2 ^ 64 ≤ 0 + s.srcSize / f.blockBytes * (f.elements * 4) at hwraps
    rw [elements_wide hf] at hwraps
    omega
  · have hheader : op.outHeader ≤ 4 := by
      unfold outHeader
      split
      · exact le_rfl
      · exact Nat.zero_le 4
    have hunits := op.units_le s.srcSize
    have hsrc := s.src_lt
    have hgrow : op.units s.srcSize * op.outBytes ≤ 8 * (op.units s.srcSize * op.inBytes) := by
      rw [Nat.mul_left_comm]
      exact Nat.mul_le_mul_left _ hle
    omega

end Wide

section Bounds

variable {b M T} {T' : Tables} {op : Codec} {s : Spans}

theorem Passes.srcSize_eq (h : op.Passes s) : op.inHeader + op.units s.srcSize * op.inBytes = s.srcSize := by
  obtain ⟨hheader, hunits⟩ := h.whole
  rw [units, Nat.div_mul_cancel (Nat.dvd_of_mod_eq_zero hunits)]
  exact Nat.add_sub_of_le hheader

/-- Every lookup for a unit is inside its table. -/
theorem lookups_inside (op : Codec) (block : Bytes) : ∀ l ∈ op.lookups block, l.Inside := by
  rcases op with (fmt | - | - | f) | (fmt | - | - | f)
  all_goals simp only [lookups, midpointLookups, List.mem_append, List.mem_flatMap]
  case compress.quant | decompress.quant => exact List.forall_mem_nil _
  case compress.nvfp4 | compress.mxfp4 => exact fun l hl => hl.elim (entries_inside _ l) (entries_inside _ l)
  case compress.block =>
    rintro l ⟨t, -, hl⟩
    exact entries_inside t l hl
  case decompress.nvfp4 | decompress.mxfp4 =>
    rintro l ⟨i, -, hl⟩
    exact nibbleLookups_inside block i l hl
  case decompress.block =>
    rintro l ⟨i, -, hl⟩
    exact blockLookups_inside f block i l hl

theorem run_of_lookups {src dst : Bytes} (h : ∀ l, op.LooksUp s src l → T.entry l = T'.entry l) :
    op.run b M T (s.call src dst) = op.run b M T' (s.call src dst) := by
  by_cases hpasses : op.Passes s
  · rw [run_of_passes hpasses, run_of_passes hpasses]
    exact body_of_lookups fun u hu l hl => h l ⟨u, hu, hl⟩
  · rw [run_of_not_passes hpasses, run_of_not_passes hpasses]

theorem run_of_same {src src' dst : Bytes} (h : SameBytes s.srcSize src src') :
    op.run b M T (s.call src dst) = op.run b M T (s.call src' dst) := by
  by_cases hpasses : op.Passes s
  · rw [run_of_passes hpasses, run_of_passes hpasses]
    refine body_same ?_
    rwa [hpasses.srcSize_eq]
  · rw [run_of_not_passes hpasses, run_of_not_passes hpasses]

theorem staysInBounds_of_sized (hsized : op.Passes s → op.outputSize s.srcSize < 2 ^ 64) :
    op.StaysInBounds b M T s where
  reads T' hT src src' dst hsame :=
    (run_of_lookups fun l hl => hT l (hl.elim fun _ hu => lookups_inside op _ l hu.2)).trans (run_of_same hsame)
  lookups src l hl := hl.elim fun _ hu => lookups_inside op _ l hu.2
  complete T' src dst := run_of_lookups
  writes src dst a hwrite := by
    by_cases h : op.Passes s
    · have hroom := h.room
      rw [Nat.mod_eq_of_lt (hsized h)] at hroom
      refine ⟨?_, hroom⟩
      by_contra hout
      rw [run_of_passes h] at hwrite
      exact hwrite (body_above (Nat.not_lt.mp hout))
    · rw [run_of_not_passes h] at hwrite
      exact absurd rfl hwrite
  found target delta := by
    rcases op with (fmt | - | - | f) | (fmt | - | - | f)
    case compress.block => exact searches_inside f target delta
    all_goals exact List.forall_mem_nil _
  refused hrefuses src dst := by
    refine run_of_not_passes fun h => ?_
    have hroom := h.room
    rw [Nat.mod_eq_of_lt (hsized h)] at hroom
    exact hrefuses.elim (fun hnot => hnot h.whole) (fun hshort => absurd hroom (Nat.not_le.mpr hshort))
  result src dst hne := by
    by_cases h : op.Passes s
    · rw [run_of_passes h] at hne ⊢
      exact (body_count (hsized h)).resolve_left hne
    · rw [run_of_not_passes h] at hne
      exact absurd rfl hne

/-- A stream of zeros is decoded to its last block. -/
theorem decodeLoop_zero (f : BlockFormat) {n : ℕ} (hn : 0 < n) : ∃ byte, ∀ dst,
    (decodeLoop f.blockBytes (f.elements * 4) (f.decode M T.toCodebooks) (fun _ => 0) dst n).2 0 = byte := by
  obtain ⟨bytes, hbytes⟩ := Option.isSome_iff_exists.mp
    ((f.decode_isSome_iff (M := M) (C := T.toCodebooks) (fun _ => 0)).mpr f.storedScales_zero)
  have hpos : 0 < f.elements * 4 := by cases f <;> decide
  refine ⟨bytes 0, fun dst => ?_⟩
  have hloop : tileWhile (f.elements * 4)
      (fun b => f.decode M T.toCodebooks (Bytes.skip (fun _ => 0) (b * f.blockBytes))) dst n =
      (tile (f.elements * 4) (fun _ => bytes) dst n, true) := tileWhile_eq_tile dst fun _ _ => hbytes
  have hfirst := tile_apply (fun _ => bytes) dst hn hpos
  rw [Nat.zero_mul, Nat.add_zero] at hfirst
  simp only [decodeLoop, hloop, hfirst]

/-- A decoder that overruns is one that should have refused: it writes the first block of zeros. -/
theorem not_staysInBounds_of_overruns (h : op.Overruns s) : ¬ op.StaysInBounds b M T s := by
  intro hbounds
  obtain ⟨f, -, rfl, hblocks⟩ := h.wide
  obtain ⟨byte, hbyte⟩ := decodeLoop_zero (M := M) (T := T) f (n := s.srcSize / f.blockBytes) (by omega)
  have hshort : s.dstSize < (decompress (.block f)).outputSize s.srcSize :=
    lt_of_lt_of_le (lt_trans s.dst_lt (by decide)) h.wraps
  have hrefused := hbounds.refused (.inr hshort) (fun _ => 0) (fun _ => byte + 1)
  rw [run_of_passes h.toPasses] at hrefused
  have hwritten : byte = byte + 1 := (hbyte fun _ => byte + 1).symm.trans (congrFun (congrArg Prod.snd hrefused) 0)
  exact absurd hwritten (by simp)

/-- A call stays in bounds unless it passes the checks with a size that wrapped. -/
theorem staysInBounds_iff (b : Build) (M : Machine) (T : Tables) (op : Codec) (s : Spans) :
    op.StaysInBounds b M T s ↔ ¬ op.Overruns s := by
  refine ⟨fun hbounds h => not_staysInBounds_of_overruns h hbounds,
    fun h => staysInBounds_of_sized fun hpasses => ?_⟩
  by_contra hwraps
  exact h ⟨hpasses, Nat.not_lt.mp hwraps⟩

end Bounds

/-- 2^54 + 1 blocks of IQ1_S before a destination for one of them, which the wrapped size takes for enough. -/
def wrappedSpans : Spans where
  srcSize := 50 * (2 ^ 54 + 1)
  srcData := 4096
  dstSize := 1024
  dstData := 4096 + 50 * (2 ^ 54 + 1)
  src_lt := by decide
  dst_lt := by decide
  apart := .inl le_rfl

theorem not_staysInBounds_wrapped :
    ¬ (decompress (.block .iq1_S)).StaysInBounds .scalar plainMachine emptyTables wrappedSpans :=
  not_staysInBounds_of_overruns
    { whole := ⟨Nat.zero_le _, by decide⟩
      room := by decide
      apart := by decide
      wraps := by decide }

end Codec

end Qtx.CodecBounds
