import Qtx.LevelRoundTrips

/-!
# Encoders of the K-quants and of Q5

Every encoder writes a block of zeros or packs fields that are in range. The layouts lose
nothing and leave no bit unused, so its decoder reads just these fields.
-/
namespace Qtx.LevelFields.LevelFormat

open Qtx.ByteStreams Qtx.FloatMachine Qtx.FpeGuard Qtx.QuantizerHelpers Qtx.LegacyBlocks Qtx.KQuants Qtx.IQuants
  Qtx.BlockFormats

variable {M : Machine} {C : Codebooks} {f : LevelFormat}

theorem fits_clamp {offset bits : ℕ} {lo hi : ℤ} (hle : lo ≤ hi) (hlo : lo + offset = 0)
    (hhi : hi + offset < 2 ^ bits) (i : ℤ) : Fits offset bits (clampInt lo hi i) := by
  have hbounds := clampInt_bounds hle i
  exact ⟨by omega, by omega⟩

theorem clamp_lt {bits top : ℕ} (htop : top < 2 ^ bits) (i : ℤ) : (clampInt 0 top i).toNat < 2 ^ bits := by
  have hbounds := clampInt_bounds (Int.natCast_nonneg top) i
  omega

section Plans

variable {s : RangeShape} {blk : ℕ → BitVec 32}

theorem scale_rangePlan_lt {bits : ℕ} (htop : s.top < 2 ^ bits) (j : ℕ) : (rangePlan M s blk).scale j < 2 ^ bits :=
  clamp_lt htop _

theorem min_rangePlan_lt {bits : ℕ} (htop : s.top < 2 ^ bits) (j : ℕ) : (rangePlan M s blk).min j < 2 ^ bits :=
  clamp_lt htop _

theorem level_rangePlan_lt {bits : ℕ} (hcodes : s.codes < 2 ^ bits) (i : ℕ) :
    (rangePlan M s blk).level i < 2 ^ bits := by
  have hite : ∀ (c : Bool) (n : ℕ), n < 2 ^ bits → (if c then 0 else n) < 2 ^ bits := by
    intro c n hn
    split_ifs
    · exact Nat.two_pow_pos bits
    · exact hn
  exact hite _ _ (clamp_lt hcodes _)

theorem fits_signedLevel {offset bits : ℕ} {lo hi : ℤ} (hle : lo ≤ hi) (hlo : lo + offset = 0)
    (hhi : hi + offset < 2 ^ bits) (hzero : 0 ≤ hi) (localD v : BitVec 32) :
    Fits offset bits (signedLevel M lo hi localD v) := by
  unfold signedLevel
  split_ifs
  · exact ⟨by omega, by omega⟩
  · exact fits_clamp hle hlo hhi _

end Plans

theorem exists_packQ3_K {scale level : ℕ → ℤ} (hscale : ∀ j, Fits 32 6 (scale j)) (hlevel : ∀ i, Fits 4 3 (level i))
    (d : BitVec 16) : ∃ x, q3_K.InRange x ∧
      packQ3_K (fun j => (scale j + 32).toNat) (fun i => (level i + 4).toNat) d = q3_K.pack x :=
  ⟨⟨d, 0, scale, fun _ => 0, level⟩,
    ⟨fun i _ => hlevel i, fun j _ => hscale j, fun j hj => absurd hj (Nat.not_lt_zero j)⟩, rfl⟩

theorem exists_packQ6_K {scale level : ℕ → ℤ} (hscale : ∀ j, Fits 128 8 (scale j))
    (hlevel : ∀ i, Fits 32 6 (level i)) (d : BitVec 16) : ∃ x, q6_K.InRange x ∧
      packQ6_K (fun i => (level i + 32).toNat) (fun j => BitVec.ofInt 8 (scale j)) d = q6_K.pack x :=
  ⟨⟨d, 0, scale, fun _ => 0, level⟩,
    ⟨fun i _ => hlevel i, fun j _ => hscale j, fun j hj => absurd hj (Nat.not_lt_zero j)⟩, rfl⟩

/-- The fields of a plan. -/
def planFields (p : RangePlan) : Fields where
  d := fp32ToFP16Safe p.d
  dmin := fp32ToFP16Safe p.dmin
  scale j := p.scale j
  min j := p.min j
  level i := p.level i

theorem inRange_planFields (hlevel : f.levelOffset = 0) (hscale : f.scaleOffset = 0) {s : RangeShape}
    (htop : s.top < 2 ^ f.scaleBits) (hcodes : s.codes < 2 ^ f.levelBits) (blk : ℕ → BitVec 32) :
    f.InRange (planFields (rangePlan M s blk)) where
  level i _ := by
    rw [hlevel]
    exact fits_natCast (level_rangePlan_lt hcodes i)
  scale j _ := by
    rw [hscale]
    exact fits_natCast (scale_rangePlan_lt htop j)
  min j _ := fits_natCast (min_rangePlan_lt htop j)

theorem encode_eq (f : LevelFormat) (block : Bytes) : f.blockFormat.encode M C block = (fun _ => 0) ∨
    ∃ x, f.InRange x ∧ f.blockFormat.encode M C block = f.pack x := by
  cases f with
  | q2_K =>
    exact .inr ⟨planFields (rangePlan M shapeQ2_K (wordAt block)),
      inRange_planFields rfl rfl (by decide) (by decide) _, rfl⟩
  | q3_K =>
    change encodeQ3_K M block = _ ∨ ∃ x, _ ∧ encodeQ3_K M block = _
    unfold encodeQ3_K
    dsimp only
    split_ifs
    · exact .inl rfl
    · right
      apply exists_packQ3_K
      · exact fun j => fits_clamp (by decide) (by decide) (by decide) _
      · exact fun i => fits_signedLevel (by decide) (by decide) (by decide) (by decide) _ _
  | q4_K =>
    change encodeQ4_K M block = _ ∨ ∃ x, _ ∧ encodeQ4_K M block = _
    unfold encodeQ4_K
    split_ifs
    · exact .inl rfl
    · exact .inr ⟨planFields (rangePlan M shapeQ4_K (wordAt block)),
        inRange_planFields rfl rfl (by decide) (by decide) _,
        rfl⟩
  | q5_K =>
    change encodeQ5_K M block = _ ∨ ∃ x, _ ∧ encodeQ5_K M block = _
    unfold encodeQ5_K
    split_ifs
    · exact .inl rfl
    · exact .inr ⟨planFields (rangePlan M shapeQ5_K (wordAt block)),
        inRange_planFields rfl rfl (by decide) (by decide) _,
        rfl⟩
  | q6_K =>
    change encodeQ6_K M block = _ ∨ ∃ x, _ ∧ encodeQ6_K M block = _
    unfold encodeQ6_K
    dsimp only
    split_ifs
    · exact .inl rfl
    · right
      apply exists_packQ6_K
      · exact fun j => fits_clamp (by decide) (by decide) (by decide) _
      · exact fun i => fits_signedLevel (by decide) (by decide) (by decide) (by decide) _ _
  | q5_0 =>
    refine .inr ⟨⟨_, 0, fun _ => 0, fun _ => 0, _⟩, ⟨?_, ?_, ?_⟩, rfl⟩
    · exact fun i _ => fits_clamp (by decide) (by decide) (by decide) _
    · exact fun j hj => absurd hj (Nat.not_lt_zero j)
    · exact fun j hj => absurd hj (Nat.not_lt_zero j)
  | q5_1 =>
    refine .inr ⟨⟨_, _, fun _ => 0, fun _ => 0, fun i => (rangeLevel M 31 _ _ _ : ℤ)⟩, ⟨?_, ?_, ?_⟩, rfl⟩
    · exact fun i _ => fits_natCast (clamp_lt (by decide) _)
    · exact fun j hj => absurd hj (Nat.not_lt_zero j)
    · exact fun j hj => absurd hj (Nat.not_lt_zero j)

/-- Fields in range are read back from what they pack, every block is packed from exactly one assignment
of them, and an encoder writes zeros or packs fields that its decoder reads. -/
theorem layouts_exact (M : Machine) (C : Codebooks) (f : LevelFormat) :
    (∀ x, f.InRange x → f.Agree (f.read (f.pack x)) x) ∧
    (∀ block : Bytes, ∃ x, f.InRange x ∧ (∀ k < f.blockFormat.blockBytes, f.pack x k = block k) ∧
      ∀ y, f.InRange y → (∀ k < f.blockFormat.blockBytes, f.pack y k = block k) → f.Agree y x) ∧
    ∀ block : Bytes, f.blockFormat.encode M C block = (fun _ => 0) ∨
      ∃ x, f.InRange x ∧ f.blockFormat.encode M C block = f.pack x ∧
        f.Agree (f.read (f.blockFormat.encode M C block)) x := by
  have hback : ∀ x, f.InRange x → f.Agree (f.read (f.pack x)) x := fun x hx => read_of_packed hx (fun k _ => rfl)
  refine ⟨hback, fun block => ?_, fun block => ?_⟩
  · refine ⟨f.read block, f.inRange_read block, f.pack_read block, fun y hy hpack => ?_⟩
    exact (read_of_packed hy hpack).symm.trans (read_of_packed (f.inRange_read block) (f.pack_read block))
  · rcases f.encode_eq (M := M) (C := C) block with hzero | ⟨x, hx, hpack⟩
    · exact .inl hzero
    · exact .inr ⟨x, hx, hpack, hpack ▸ hback x hx⟩

/-- Signed levels and scales that run through their ranges. -/
def runningFields : Fields where
  d := 0x3C00#16
  dmin := 0
  scale j := j - 8
  min _ := 0
  level i := i % 8 - 4

theorem layouts_exact_running : q3_K.Agree (q3_K.read (q3_K.pack runningFields)) runningFields := by
  apply (layouts_exact plainMachine emptyCodebooks q3_K).1
  refine ⟨fun i _ => ?_, fun j hj => ?_, fun j hj => absurd hj (Nat.not_lt_zero j)⟩
  · change 0 ≤ (i : ℤ) % 8 - 4 + 4 ∧ (i : ℤ) % 8 - 4 + 4 < 2 ^ 3
    omega
  · change j < 16 at hj
    change 0 ≤ (j : ℤ) - 8 + 32 ∧ (j : ℤ) - 8 + 32 < 2 ^ 6
    omega

end Qtx.LevelFields.LevelFormat
