import Qtx.GridLayouts
import Qtx.StoredScales

/-!
# The stored scales of a block

Which half words of a block its decoder tests, and which ones an encoder stores there. A
block is accepted if and only if all of them decode to finite values.
-/
namespace Qtx.BlockFormats

open Qtx.ByteStreams Qtx.FloatMachine Qtx.FpeGuard Qtx.LegacyBlocks Qtx.KQuants Qtx.IQuants Qtx.GridLayouts
  Qtx.StoredScales

/-- The decoders accept a half word if it decodes to a finite value. -/
def AcceptedScale (h : BitVec 16) : Prop := isFiniteStrict (fp16ToFP32 h) = true

theorem acceptedScale_stored_iff (d : BitVec 32) : AcceptedScale (fp32ToFP16Safe d) ↔ IsFinite d :=
  finite_stored_iff d

theorem acceptedScale_zero : AcceptedScale 0#16 := finite_stored_zero

theorem isSome_guard_iff (p : Bool) (bytes : Bytes) :
    (if !p then none else some bytes).isSome = true ↔ p = true := by
  cases p <;> simp

theorem isSome_guard_two_iff (p q : Bool) (bytes : Bytes) :
    (if !p || !q then none else some bytes).isSome = true ↔ p = true ∧ q = true := by
  cases p <;> cases q <;> simp

namespace BlockFormat

variable {M : Machine} {C : Codebooks}

/-- The half words of a block that hold its scale and, in the formats with a minimum, the minimum. -/
def storedScales : BlockFormat → Bytes → List (BitVec 16)
  | q4_1, block | q5_1, block | q4_K, block | q5_K, block => [loadU16 block, loadU16 (block.skip 2)]
  | q2_K, block => [loadU16 (block.skip 80), loadU16 (block.skip 82)]
  | q3_K, block => [loadU16 (block.skip 108)]
  | q6_K, block => [loadU16 (block.skip 208)]
  | iq1_M, block => [superIQ1_M block]
  | q5_0, block | iq4_NL, block | iq4_XS, block | iq2_XXS, block | iq2_XS, block | iq2_S, block | iq3_XXS, block
  | iq3_S, block | iq1_S, block => [loadU16 block]

/-- A decoder rejects a block if and only if one of its scales is not finite. -/
theorem decode_isSome_iff (f : BlockFormat) (block : Bytes) :
    (f.decode M C block).isSome = true ↔ ∀ h ∈ f.storedScales block, AcceptedScale h := by
  cases f
  case q4_1 | q5_1 | q4_K | q5_K | q2_K =>
    refine (isSome_guard_two_iff _ _ _).trans ?_
    simp [storedScales, AcceptedScale]
  all_goals
    refine (isSome_guard_iff _ _).trans ?_
    simp [storedScales, AcceptedScale]

/-! The half words that the packers store. -/

section Packed

variable (d dmin : BitVec 16) (scale min level : ℕ → ℕ)

theorem storedScales_zero (f : BlockFormat) : ∀ h ∈ f.storedScales (fun _ => 0), AcceptedScale h := by
  have hskip : ∀ k, Bytes.skip (fun _ => 0#8) k = fun _ => 0#8 := fun _ => rfl
  have hload : loadU16 (fun _ => 0#8) = 0#16 := by decide
  have hsuper : superIQ1_M (fun _ => 0#8) = 0#16 := by decide
  cases f <;> simp [storedScales, hskip, hload, hsuper, acceptedScale_zero]

theorem storedScales_packQ4_1 : q4_1.storedScales (packQ4_1 d dmin level) = [d, dmin] := by
  change [loadU16 (packQ4_1 d dmin level), loadU16 ((packQ4_1 d dmin level).skip 2)] = _
  rw [packQ4_1, join_skip_self, loadU16_join, loadU16_join]

theorem storedScales_packQ5_0 : q5_0.storedScales (packQ5_0 d level) = [d] := by
  change [loadU16 (packQ5_0 d level)] = _
  rw [packQ5_0, loadU16_join]

theorem storedScales_packQ5_1 : q5_1.storedScales (packQ5_1 d dmin level) = [d, dmin] := by
  change [loadU16 (packQ5_1 d dmin level), loadU16 ((packQ5_1 d dmin level).skip 2)] = _
  rw [packQ5_1, join_skip_self, loadU16_join, loadU16_join]

theorem storedScales_packQ2_K : q2_K.storedScales (packQ2_K scale min level d dmin) = [d, dmin] := by
  change [loadU16 ((packQ2_K scale min level d dmin).skip 80),
    loadU16 ((packQ2_K scale min level d dmin).skip 82)] = _
  rw [packQ2_K, join_skip _ _ (by decide : 16 ≤ 80), join_skip_self, join_skip _ _ (by decide : 16 ≤ 82),
    join_skip _ _ (by decide : 64 ≤ 66), join_skip_self, loadU16_join, loadU16_join]

theorem storedScales_packQ3_K : q3_K.storedScales (packQ3_K scale level d) = [d] := by
  change [loadU16 ((packQ3_K scale level d).skip 108)] = _
  rw [packQ3_K, join_skip _ _ (by decide), join_skip _ _ (by decide), join_skip_self, loadU16_join]

theorem storedScales_packQ4_K : q4_K.storedScales (packQ4_K d dmin scale min level) = [d, dmin] := by
  change [loadU16 (packQ4_K d dmin scale min level), loadU16 ((packQ4_K d dmin scale min level).skip 2)] = _
  rw [packQ4_K, join_skip_self, loadU16_join, loadU16_join]

theorem storedScales_packQ5_K : q5_K.storedScales (packQ5_K d dmin scale min level) = [d, dmin] := by
  change [loadU16 (packQ5_K d dmin scale min level), loadU16 ((packQ5_K d dmin scale min level).skip 2)] = _
  rw [packQ5_K, join_skip_self, loadU16_join, loadU16_join]

theorem storedScales_packQ6_K (scale : ℕ → BitVec 8) : q6_K.storedScales (packQ6_K level scale d) = [d] := by
  change [loadU16 ((packQ6_K level scale d).skip 208)] = _
  rw [packQ6_K, join_skip _ _ (by decide), join_skip _ _ (by decide), join_skip_self, loadU16_join]

theorem storedScales_packIQ4_NL : iq4_NL.storedScales (packIQ4_NL d level) = [d] := by
  change [loadU16 (packIQ4_NL d level)] = _
  rw [packIQ4_NL, loadU16_join]

end Packed

end BlockFormat

end Qtx.BlockFormats
