import Qtx.GridFields

/-!
# Layouts of the I-quant super-blocks

Every format reads back the fields it packed.
-/
namespace Qtx.GridLayouts

open Qtx.ByteStreams Qtx.PackedDigits Qtx.IQuants Qtx.GridFields Qtx.GridFields.GridFormat

variable {x : Fields} {ib : ℕ}

/-! Words and bytes. -/

/-- The bytes of a word are its digits. -/
theorem toNat_bytesOf {w : ℕ} (v : BitVec w) (k : ℕ) : (bytesOf v k).toNat = digitAt 8 v.toNat k := by
  rw [bytesOf, BitVec.extractLsb'_toNat, digitAt_eq, Nat.shiftRight_eq_div_pow]

theorem toNat_ofNat_byte {n : ℕ} (h : n < 256) : (BitVec.ofNat 8 n).toNat = n := by
  rw [BitVec.toNat_ofNat]
  exact Nat.mod_eq_of_lt h

theorem toNat_bne_zero {n : ℕ} (h : n < 2 ^ 1) : (n != 0).toNat = n := by
  obtain rfl | rfl : n = 0 ∨ n = 1 := by omega
  · rfl
  · rfl

/-- An index of eleven bits is its low byte with its high bits above. -/
theorem low_and_high (g : ℕ) (h : g < 2 ^ 11) : g &&& 0xFF ||| ((g >>> 8) &&& 0x07) <<< 8 = g := by
  have hlow : g % 2 ^ 8 < 2 ^ 8 := Nat.mod_lt _ (by decide)
  rw [and_mask 8 rfl, and_mask 3 rfl, or_shiftLeft hlow, Nat.shiftRight_eq_div_pow]
  omega

/-! Four sign codes below a scale. -/

section SignsScale

variable {signs : ℕ → ℕ} {scale : ℕ}

theorem toNat_packSignsScale (hsigns : ∀ l < 4, signs l < 2 ^ 7) (hscale : scale < 2 ^ 4) :
    (packSignsScale signs scale).toNat = packDigits 7 signs 4 + scale * 2 ^ (7 * 4) := by
  have hlt : packDigits 7 signs 4 < 2 ^ 28 := packDigits_lt hsigns
  rw [packSignsScale, and_mask 4 rfl, Nat.mod_eq_of_lt hscale, or_shiftLeft hlt, BitVec.toNat_ofNat,
    Nat.mod_eq_of_lt (by omega)]

theorem unpackSigns_packSignsScale (hsigns : ∀ l < 4, signs l < 2 ^ 7) (hscale : scale < 2 ^ 4) {l : ℕ}
    (hl : l < 4) :
    unpackSigns (packSignsScale signs scale) l = signs l := by
  have hdigit : unpackSigns (packSignsScale signs scale) l = digitAt 7 (packSignsScale signs scale).toNat l := rfl
  rw [hdigit, toNat_packSignsScale hsigns hscale, digitAt_add _ _ hl, digitAt_packDigits hsigns hl]

theorem scale_packSignsScale (hsigns : ∀ l < 4, signs l < 2 ^ 7) (hscale : scale < 2 ^ 4) :
    (packSignsScale signs scale).toNat >>> 28 = scale := by
  have hlt : packDigits 7 signs 4 < 2 ^ 28 := packDigits_lt hsigns
  rw [toNat_packSignsScale hsigns hscale, Nat.shiftRight_eq_div_pow]
  omega

end SignsScale

/-! The formats. -/

variable {d : BitVec 16} {gridIdx signs : ℕ → ℕ → ℕ} {scale : ℕ → ℕ} {ib l : ℕ}

section IQ2_XXS

theorem auxIQ2_XXS_pack (hib : ib < 8) :
    auxIQ2_XXS (packIQ2_XXS d gridIdx signs scale) ib = packSignsScale (signs ib) (scale ib) := by
  apply loadU32_eq
  intro k hk
  have hdiv : (8 * ib + (4 + k)) / 8 = ib := by omega
  have hmod : (8 * ib + (4 + k)) % 8 = 4 + k := by omega
  have hge : ¬ 4 + k < 4 := by omega
  rw [skip_apply, Nat.add_assoc, packIQ2_XXS, join_skip_self, join_apply _ _ (by omega)]
  simp only [hdiv, hmod, hge, if_false, Nat.add_sub_cancel_left]

theorem gridIQ2_XXS_pack (hindex : ∀ l < 4, gridIdx ib l < 2 ^ 8) (hib : ib < 8) (hl : l < 4) :
    gridIQ2_XXS (packIQ2_XXS d gridIdx signs scale) ib l = gridIdx ib l := by
  have hdiv : (8 * ib + l) / 8 = ib := by omega
  have hmod : (8 * ib + l) % 8 = l := by omega
  have hword : packDigits 8 (gridIdx ib) 4 < 2 ^ 32 := packDigits_lt hindex
  rw [gridIQ2_XXS, packIQ2_XXS, join_skip_self, skip_apply, join_apply _ _ (by omega)]
  simp only [hdiv, hmod, hl, if_true]
  rw [toNat_bytesOf, BitVec.toNat_ofNat, Nat.mod_eq_of_lt hword, digitAt_packDigits hindex hl]

end IQ2_XXS

section IQ2_XS

theorem toNat_wordIQ2_XS_pack (hindex : gridIdx ib l < 2 ^ 9) (hsigns : signs ib l < 2 ^ 7) (hib : ib < 8)
    (hl : l < 4) :
    (wordIQ2_XS (packIQ2_XS d gridIdx signs scale) ib l).toNat = gridIdx ib l + signs ib l * 2 ^ 9 := by
  have hload : wordIQ2_XS (packIQ2_XS d gridIdx signs scale) ib l =
      BitVec.ofNat 16 ((gridIdx ib l &&& 0x1FF) ||| signs ib l <<< 9) := by
    apply loadU16_eq
    intro k hk
    have hdiv : (2 * (4 * ib + l) + k) / 8 = ib := by omega
    have hgroup : (2 * (4 * ib + l) + k) % 8 / 2 = l := by omega
    have hmod : (2 * (4 * ib + l) + k) % 2 = k := by omega
    rw [skip_apply, packIQ2_XS, join_skip_self, join_apply _ _ (by omega)]
    simp only [hdiv, hgroup, hmod]
  rw [hload, and_mask 9 rfl, Nat.mod_eq_of_lt hindex, or_shiftLeft hindex, BitVec.toNat_ofNat,
    Nat.mod_eq_of_lt (by omega)]

theorem indexIQ2_XS_pack (hindex : gridIdx ib l < 2 ^ 9) (hsigns : signs ib l < 2 ^ 7) (hib : ib < 8) (hl : l < 4) :
    (wordIQ2_XS (packIQ2_XS d gridIdx signs scale) ib l).toNat &&& 0x1FF = gridIdx ib l := by
  rw [toNat_wordIQ2_XS_pack hindex hsigns hib hl, and_mask 9 rfl]
  omega

theorem signsIQ2_XS_pack (hindex : gridIdx ib l < 2 ^ 9) (hsigns : signs ib l < 2 ^ 7) (hib : ib < 8) (hl : l < 4) :
    (wordIQ2_XS (packIQ2_XS d gridIdx signs scale) ib l).toNat >>> 9 = signs ib l := by
  rw [toNat_wordIQ2_XS_pack hindex hsigns hib hl, Nat.shiftRight_eq_div_pow]
  omega

end IQ2_XS

/-- The scale that lies in both nibbles of a byte. -/
theorem halfScale_nibbles {n : ℕ} (h : n < 2 ^ 4) (half : ℕ) :
    halfScale (nibbles (n &&& 0x0F) (n &&& 0x0F)) half = n := by
  rw [and_mask 4 rfl, Nat.mod_eq_of_lt h, halfScale, toNat_nibbles h h, and_mask 4 rfl, Nat.shiftRight_eq_div_pow]
  split_ifs <;> omega

theorem scaleIQ2_XS_pack (hscale : ∀ ib < 8, scale ib < 2 ^ 4) (hib : ib < 8) (half : ℕ) :
    halfScale ((packIQ2_XS d gridIdx signs scale).skip 66 ib) half = scale ib := by
  rw [packIQ2_XS, join_skip _ _ (by decide), join_skip_self, join_apply _ _ hib]
  exact halfScale_nibbles (hscale ib hib) half

section IQ2_S

theorem gridIQ2_S_pack (hindex : ∀ l < 4, gridIdx ib l < 2 ^ 10) (hib : ib < 8) (hl : l < 4) :
    gridIQ2_S (packIQ2_S d gridIdx signs scale) ib l = gridIdx ib l := by
  have hdiv : (4 * ib + l) / 4 = ib := by omega
  have hmod : (4 * ib + l) % 4 = l := by omega
  have hdigits : ∀ k < 4, (gridIdx ib k >>> 8) &&& 0x03 < 2 ^ 2 := fun k _ => Nat.and_lt_two_pow _ (by decide)
  have hlow : (packIQ2_S d gridIdx signs scale).skip 2 (4 * ib + l) = BitVec.ofNat 8 (gridIdx ib l &&& 0xFF) := by
    rw [packIQ2_S, join_skip_self, join_apply _ _ (by omega), hdiv, hmod]
  have hhigh : (((packIQ2_S d gridIdx signs scale).skip 66 ib).toNat >>> (2 * l)) &&& 0x03 =
      (gridIdx ib l >>> 8) &&& 0x03 := by
    have hbyte := packDigits_lt hdigits
    rw [packIQ2_S, join_skip _ _ (by decide), join_skip _ _ (by decide), join_skip_self, join_apply _ _ hib,
      toNat_ofNat_byte hbyte]
    exact digitAt_packDigits hdigits hl
  have hbound := hindex l hl
  have hrest : gridIdx ib l % 2 ^ 8 < 2 ^ 8 := Nat.mod_lt _ (by decide)
  rw [gridIQ2_S, hlow, hhigh, and_mask 8 rfl, toNat_ofNat_byte hrest, and_mask 2 rfl, or_shiftLeft hrest,
    Nat.shiftRight_eq_div_pow]
  omega

theorem signsIQ2_S_pack (hib : ib < 8) (hl : l < 4) :
    signsIQ2_S (packIQ2_S d gridIdx signs scale) ib l = BitVec.ofNat 8 (signs ib l) := by
  have hdiv : (4 * ib + l) / 4 = ib := by omega
  have hmod : (4 * ib + l) % 4 = l := by omega
  rw [signsIQ2_S, packIQ2_S, join_skip_self, join_skip_self, join_apply _ _ (by omega), hdiv, hmod]

theorem scaleIQ2_S_pack (hscale : ∀ ib < 8, scale ib < 2 ^ 4) (hib : ib < 8) (half : ℕ) :
    halfScale ((packIQ2_S d gridIdx signs scale).skip 74 ib) half = scale ib := by
  rw [packIQ2_S, join_skip _ _ (by decide), join_skip _ _ (by decide), join_skip _ _ (by decide), join_skip_self,
    join_apply _ _ hib]
  exact halfScale_nibbles (hscale ib hib) half

end IQ2_S

section IQ3_XXS

theorem gridIQ3_XXS_pack (hindex : gridIdx ib l < 2 ^ 8) (hib : ib < 8) (hl : l < 8) :
    gridIQ3_XXS (packIQ3_XXS d gridIdx signs scale) ib l = gridIdx ib l := by
  have hdiv : (8 * ib + l) / 8 = ib := by omega
  have hmod : (8 * ib + l) % 8 = l := by omega
  rw [gridIQ3_XXS, packIQ3_XXS, join_skip_self, join_apply _ _ (by omega), hdiv, hmod, toNat_ofNat_byte hindex]

theorem auxIQ3_XXS_pack (hib : ib < 8) :
    auxIQ3_XXS (packIQ3_XXS d gridIdx signs scale) ib = packSignsScale (signs ib) (scale ib) := by
  apply loadU32_eq
  intro k hk
  have hdiv : (4 * ib + k) / 4 = ib := by omega
  have hmod : (4 * ib + k) % 4 = k := by omega
  rw [skip_apply, packIQ3_XXS, join_skip _ _ (by decide), join_skip_self, join_apply _ _ (by omega), hdiv, hmod]

end IQ3_XXS

section IQ3_S

theorem gridIQ3_S_pack (hindex : gridIdx ib l < 2 ^ 9) (hib : ib < 8) (hl : l < 8) :
    gridIQ3_S (packIQ3_S d gridIdx signs scale) ib l = gridIdx ib l := by
  have hdiv : (8 * ib + l) / 8 = ib := by omega
  have hmod : (8 * ib + l) % 8 = l := by omega
  have hlow : (packIQ3_S d gridIdx signs scale).skip 2 (8 * ib + l) = BitVec.ofNat 8 (gridIdx ib l &&& 0xFF) := by
    rw [packIQ3_S, join_skip_self, join_apply _ _ (by omega), hdiv, hmod]
  have hhigh : (((packIQ3_S d gridIdx signs scale).skip 66 ib).toNat >>> l) &&& 0x01 =
    gridIdx ib l / 2 ^ 8 % 2 := by
    have hdigit : ∀ m, (m >>> l) &&& 0x01 = digitAt 1 m l := by
      intro m
      rw [digitAt, Nat.one_mul]
      rfl
    rw [packIQ3_S, join_skip _ _ (by decide), join_skip_self, join_apply _ _ hib, toNat_ofNat_byte (bitMask_lt _ 8),
      hdigit, digitAt_bitMask _ hl, toNat_and_ne_zero 8 (m := 0x100) rfl]
  have hrest : gridIdx ib l % 2 ^ 8 < 2 ^ 8 := Nat.mod_lt _ (by decide)
  rw [gridIQ3_S, hlow, hhigh, and_mask 8 rfl, toNat_ofNat_byte hrest, or_shiftLeft hrest]
  omega

theorem signsIQ3_S_pack (hib : ib < 8) (hl : l < 4) :
    signsIQ3_S (packIQ3_S d gridIdx signs scale) ib l = BitVec.ofNat 8 (signs ib l) := by
  have hdiv : (4 * ib + l) / 4 = ib := by omega
  have hmod : (4 * ib + l) % 4 = l := by omega
  rw [signsIQ3_S, packIQ3_S, join_skip _ _ (by decide), join_skip _ _ (by decide), join_skip_self,
    join_apply _ _ (by omega), hdiv, hmod]

theorem scaleIQ3_S_pack (hscale : ∀ ib < 8, scale ib < 2 ^ 4) (hib : ib < 8) :
    scaleIQ3_S (packIQ3_S d gridIdx signs scale) ib = scale ib := by
  have hlo := hscale (2 * (ib / 2)) (by omega)
  have hhi := hscale (2 * (ib / 2) + 1) (by omega)
  have hbyte : (packIQ3_S d gridIdx signs scale).skip 106 (ib / 2) =
      nibbles (scale (2 * (ib / 2))) (scale (2 * (ib / 2) + 1)) := by
    rw [packIQ3_S, join_skip _ _ (by decide), join_skip _ _ (by decide), join_skip _ _ (by decide), join_skip_self,
      join_apply _ _ (by omega), and_mask 4 rfl, and_mask 4 rfl, Nat.mod_eq_of_lt hlo, Nat.mod_eq_of_lt hhi]
  simp only [scaleIQ3_S, hbyte, toNat_nibbles hlo hhi]
  rw [and_mask 4 rfl, Nat.shiftRight_eq_div_pow]
  split_ifs with heven
  · have hib' : 2 * (ib / 2) = ib := by omega
    rw [hib'] at hlo ⊢
    omega
  · have hib' : 2 * (ib / 2) + 1 = ib := by omega
    rw [hib'] at hhi ⊢
    omega

end IQ3_S

section IQ1_S

variable {deltaNeg : ℕ → Bool}

/-- The high bits of the indices are digits, the scale lies above them and the sign on top. -/
theorem highIQ1_S_pack (hscale : ∀ ib < 8, scale ib < 2 ^ 3) (hib : ib < 8) :
    highIQ1_S (packIQ1_S d gridIdx scale deltaNeg) ib =
      packDigits 3 (fun l => (gridIdx ib l >>> 8) &&& 0x07) 4 +
        (scale ib + (deltaNeg ib).toNat * 2 ^ 3) * 2 ^ (3 * 4) := by
  have hdigits : packDigits 3 (fun l => (gridIdx ib l >>> 8) &&& 0x07) 4 < 2 ^ 12 :=
    packDigits_lt (fun k _ => Nat.and_lt_two_pow _ (by decide))
  have hload : loadU16 (((packIQ1_S d gridIdx scale deltaNeg).skip 34).skip (2 * ib)) = BitVec.ofNat 16
      (if deltaNeg ib
      then packDigits 3 (fun l => (gridIdx ib l >>> 8) &&& 0x07) 4 ||| (scale ib &&& 0x07) <<< 12 ||| 0x8000
      else packDigits 3 (fun l => (gridIdx ib l >>> 8) &&& 0x07) 4 ||| (scale ib &&& 0x07) <<< 12) := by
    apply loadU16_eq
    intro k hk
    have hdiv : (2 * ib + k) / 2 = ib := by omega
    have hmod : (2 * ib + k) % 2 = k := by omega
    rw [skip_apply, packIQ1_S, join_skip _ _ (by decide), join_skip_self, join_apply _ _ (by omega), hdiv, hmod]
  have hbound := hscale ib hib
  rw [highIQ1_S, hload, and_mask 3 rfl, Nat.mod_eq_of_lt hbound, or_shiftLeft hdigits]
  generalize packDigits 3 (fun l => (gridIdx ib l >>> 8) &&& 0x07) 4 = high at *
  have htop : ∀ n, n < 2 ^ 15 → n ||| 0x8000 = n + 1 * 2 ^ 15 := fun n hn => or_shiftLeft (b := 1) hn
  cases deltaNeg ib
  · rw [if_neg Bool.false_ne_true, BitVec.toNat_ofNat, Bool.toNat_false, Nat.mod_eq_of_lt (by omega)]
    omega
  · rw [if_pos rfl, htop _ (by omega), BitVec.toNat_ofNat, Bool.toNat_true, Nat.mod_eq_of_lt (by omega)]
    omega

theorem gridIQ1_S_pack (hindex : gridIdx ib l < 2 ^ 11) (hscale : ∀ ib < 8, scale ib < 2 ^ 3) (hib : ib < 8)
    (hl : l < 4) :
    gridIQ1_S (packIQ1_S d gridIdx scale deltaNeg) ib l = gridIdx ib l := by
  have hdiv : (4 * ib + l) / 4 = ib := by omega
  have hmod : (4 * ib + l) % 4 = l := by omega
  have hdigits : ∀ k < 4, (gridIdx ib k >>> 8) &&& 0x07 < 2 ^ 3 := fun k _ => Nat.and_lt_two_pow _ (by decide)
  have hlow : (packIQ1_S d gridIdx scale deltaNeg).skip 2 (4 * ib + l) =
    BitVec.ofNat 8 (gridIdx ib l &&& 0xFF) := by
    rw [packIQ1_S, join_skip_self, join_apply _ _ (by omega), hdiv, hmod]
  have hhigh : (highIQ1_S (packIQ1_S d gridIdx scale deltaNeg) ib >>> (3 * l)) &&& 0x07 =
    (gridIdx ib l >>> 8) &&& 0x07 := by
    rw [highIQ1_S_pack hscale hib]
    exact (digitAt_add _ _ hl).trans (digitAt_packDigits hdigits hl)
  rw [gridIQ1_S, hlow, hhigh, toNat_ofNat_byte (Nat.and_lt_two_pow (n := 8) _ (by decide)), low_and_high _ hindex]

theorem scaleIQ1_S_pack (hscale : ∀ ib < 8, scale ib < 2 ^ 3) (hib : ib < 8) :
    scaleIQ1_S (packIQ1_S d gridIdx scale deltaNeg) ib = scale ib := by
  have hdigits : packDigits 3 (fun l => (gridIdx ib l >>> 8) &&& 0x07) 4 < 2 ^ 12 :=
    packDigits_lt (fun k _ => Nat.and_lt_two_pow _ (by decide))
  have hbound := hscale ib hib
  rw [scaleIQ1_S, highIQ1_S_pack hscale hib, and_mask 3 rfl, Nat.shiftRight_eq_div_pow]
  omega

theorem deltaNegIQ1_S_pack (hscale : ∀ ib < 8, scale ib < 2 ^ 3) (hib : ib < 8) :
    deltaNegIQ1_S (packIQ1_S d gridIdx scale deltaNeg) ib = deltaNeg ib := by
  have hdigits : packDigits 3 (fun l => (gridIdx ib l >>> 8) &&& 0x07) 4 < 2 ^ 12 :=
    packDigits_lt (fun k _ => Nat.and_lt_two_pow _ (by decide))
  have hone := Bool.toNat_le (deltaNeg ib)
  have hbound := hscale ib hib
  apply and_ne_zero_eq 15 rfl
  rw [highIQ1_S_pack hscale hib]
  omega

end IQ1_S

section IQ1_M

variable {deltaNeg : ℕ → Bool} {k : ℕ}

/-- The two indices and the two copies of the sign in one byte. -/
theorem toNat_packHighIQ1_M (gridIdx : ℕ → ℕ → ℕ) (deltaNeg : ℕ → Bool) (k : ℕ) :
    (packHighIQ1_M gridIdx deltaNeg k).toNat =
      gridIdx (k / 2) (2 * (k % 2)) / 2 ^ 8 % 2 ^ 3 + (deltaNeg k).toNat * 2 ^ 3 +
        (gridIdx (k / 2) (2 * (k % 2) + 1) / 2 ^ 8 % 2 ^ 3 + (deltaNeg k).toNat * 2 ^ 3) * 2 ^ 4 := by
  have hpart : ∀ l, (gridIdx (k / 2) l >>> 8) &&& 0x07 = gridIdx (k / 2) l / 2 ^ 8 % 2 ^ 3 := by
    intro l
    rw [and_mask 3 rfl, Nat.shiftRight_eq_div_pow]
  have hlo : gridIdx (k / 2) (2 * (k % 2)) / 2 ^ 8 % 2 ^ 3 < 2 ^ 3 := Nat.mod_lt _ (by decide)
  have hhi : gridIdx (k / 2) (2 * (k % 2) + 1) / 2 ^ 8 % 2 ^ 3 < 2 ^ 3 := Nat.mod_lt _ (by decide)
  simp only [packHighIQ1_M, hpart]
  generalize gridIdx (k / 2) (2 * (k % 2)) / 2 ^ 8 % 2 ^ 3 = lo at *
  generalize gridIdx (k / 2) (2 * (k % 2) + 1) / 2 ^ 8 % 2 ^ 3 = hi at *
  have hbit : ∀ n, n < 2 ^ 3 → n ||| 0x08 = n + 1 * 2 ^ 3 := fun n hn => or_shiftLeft (b := 1) hn
  have htop : ∀ n, n < 2 ^ 7 → n ||| 0x08 <<< 4 = n + 1 * 2 ^ 7 := fun n hn => or_shiftLeft (b := 1) hn
  cases deltaNeg k
  · simp only [Bool.false_eq_true, if_false, Bool.toNat_false]
    rw [or_shiftLeft (s := 4) (by omega), toNat_ofNat_byte (by omega)]
    omega
  · simp only [if_true, Bool.toNat_true]
    rw [hbit lo hlo, or_shiftLeft (b := hi) (s := 4) (by omega), htop _ (by omega), toNat_ofNat_byte (by omega)]
    omega

/-- The fields of such a byte. -/
theorem highByte_fields {lo hi b : ℕ} (hlo : lo < 2 ^ 3) (hhi : hi < 2 ^ 3) (hb : b ≤ 1) {byte : ℕ}
    (hbyte : byte = lo + b * 2 ^ 3 + (hi + b * 2 ^ 3) * 2 ^ 4) :
    byte * 2 ^ 8 / 2 ^ 8 % 2 ^ 3 = lo ∧ byte * 2 ^ 4 / 2 ^ 8 % 2 ^ 3 = hi ∧
      byte / 2 ^ 3 % 2 = b ∧ byte / 2 ^ 7 % 2 = b := by
  obtain rfl | rfl : b = 0 ∨ b = 1 := by omega
  · refine ⟨?_, ?_, ?_, ?_⟩ <;> omega
  · refine ⟨?_, ?_, ?_, ?_⟩ <;> omega

theorem toNat_packScaleIQ1_M (d : BitVec 16) (scale : ℕ → ℕ) (k : ℕ) : (packScaleIQ1_M d scale k).toNat =
    packDigits 3 (fun t => scale (4 * k + t) &&& 0x07) 4 + digitAt 4 d.toNat k * 2 ^ (3 * 4) := by
  have hdigits : packDigits 3 (fun t => scale (4 * k + t) &&& 0x07) 4 < 2 ^ (3 * 4) :=
    packDigits_lt (fun t _ => Nat.and_lt_two_pow _ (by decide))
  have hdigit := digitAt_lt 4 d.toNat k
  have hpack : packScaleIQ1_M d scale k = BitVec.ofNat 16
      (packDigits 3 (fun t => scale (4 * k + t) &&& 0x07) 4 ||| digitAt 4 d.toNat k <<< (3 * 4)) := by
    simp [packScaleIQ1_M, packDigits, loop, digitAt]
  rw [hpack, or_shiftLeft hdigits, BitVec.toNat_ofNat, Nat.mod_eq_of_lt (by omega)]

theorem wordIQ1_M_pack (hk : k < 4) : wordIQ1_M (packIQ1_M d gridIdx scale deltaNeg) k =
    packDigits 3 (fun t => scale (4 * k + t) &&& 0x07) 4 + digitAt 4 d.toNat k * 2 ^ (3 * 4) := by
  have hload : loadU16 (((packIQ1_M d gridIdx scale deltaNeg).skip 48).skip (2 * k)) =
    packScaleIQ1_M d scale k := by
    apply loadU16_eq
    intro t ht
    have hdiv : (2 * k + t) / 2 = k := by omega
    have hmod : (2 * k + t) % 2 = t := by omega
    rw [skip_apply, packIQ1_M, join_skip _ _ (by decide), join_skip_self, join_apply _ _ (by omega), hdiv, hmod]
  rw [wordIQ1_M, hload, toNat_packScaleIQ1_M]

/-- The super-scale is put together from its four nibbles. -/
theorem superIQ1_M_pack : superIQ1_M (packIQ1_M d gridIdx scale deltaNeg) = d := by
  have hdigits : ∀ k, packDigits 3 (fun t => scale (4 * k + t) &&& 0x07) 4 < 2 ^ 12 :=
    fun k => packDigits_lt (fun t _ => Nat.and_lt_two_pow _ (by decide))
  have hd := d.isLt
  have hnibble : ∀ k, digitAt 4 d.toNat k < 2 ^ 4 := digitAt_lt 4 d.toNat
  have hshift : ∀ k < 4, wordIQ1_M (packIQ1_M d gridIdx scale deltaNeg) k >>> 12 = digitAt 4 d.toNat k := by
    intro k hk
    have hlt := hdigits k
    rw [wordIQ1_M_pack hk, Nat.shiftRight_eq_div_pow]
    omega
  have hmask : ∀ k < 4, ∀ s ≤ 12, (wordIQ1_M (packIQ1_M d gridIdx scale deltaNeg) k >>> s) &&& 0xF <<< (12 - s) =
      digitAt 4 d.toNat k <<< (12 - s) := by
    intro k hk s hs
    rw [and_shiftLeft, ← Nat.shiftRight_add, Nat.add_sub_cancel' hs, hshift k hk, and_mask 4 rfl,
      Nat.mod_eq_of_lt (hnibble k)]
  have h1 := hmask 1 (by decide) 8 (by decide)
  have h2 := hmask 2 (by decide) 4 (by decide)
  have h3 := hmask 3 (by decide) 0 (by decide)
  rw [Nat.shiftRight_zero] at h3
  have hsuper : superIQ1_M (packIQ1_M d gridIdx scale deltaNeg) =
    BitVec.ofNat 16 (packDigits 4 (digitAt 4 d.toNat) 4) := by
    have hpack : packDigits 4 (digitAt 4 d.toNat) 4 =
        digitAt 4 d.toNat 0 ||| digitAt 4 d.toNat 1 <<< 4 ||| digitAt 4 d.toNat 2 <<< 8 |||
          digitAt 4 d.toNat 3 <<< 12 := by
      simp [packDigits, loop]
    rw [hpack, ← hshift 0 (by decide), ← h1, ← h2, ← h3]
    rfl
  rw [hsuper, packDigits_digitAt, Nat.mod_eq_of_lt hd, BitVec.ofNat_toNat, BitVec.setWidth_eq]

theorem scaleIQ1_M_pack {half : ℕ} (hscale : scale (2 * ib + half) < 2 ^ 3) (hib : ib < 8) (hhalf : half < 2) :
    scaleIQ1_M (packIQ1_M d gridIdx scale deltaNeg) ib half = scale (2 * ib + half) := by
  have hdigits : ∀ t < 4, scale (4 * (ib / 2) + t) &&& 0x07 < 2 ^ 3 := fun t _ => Nat.and_lt_two_pow _ (by decide)
  have hpos : 6 * (ib % 2) + 3 * half = 3 * (2 * (ib % 2) + half) := by omega
  have hindex : 4 * (ib / 2) + (2 * (ib % 2) + half) = 2 * ib + half := by omega
  have ht : 2 * (ib % 2) + half < 4 := by omega
  rw [scaleIQ1_M, hpos, wordIQ1_M_pack (by omega)]
  refine (digitAt_add _ _ ht).trans ((digitAt_packDigits hdigits ht).trans ?_)
  rw [hindex, and_mask 3 rfl, Nat.mod_eq_of_lt hscale]

theorem highByteIQ1_M (hib : ib < 8) (hl : l < 4) :
    (packIQ1_M d gridIdx scale deltaNeg).skip 32 (2 * ib + l / 2) =
    packHighIQ1_M gridIdx deltaNeg (2 * ib + l / 2) := by
  rw [packIQ1_M, join_skip_self, join_apply _ _ (by omega)]

theorem gridIQ1_M_pack (hindex : gridIdx ib l < 2 ^ 11) (hib : ib < 8) (hl : l < 4) :
    gridIQ1_M (packIQ1_M d gridIdx scale deltaNeg) ib l = gridIdx ib l := by
  have hdiv : (4 * ib + l) / 4 = ib := by omega
  have hmod : (4 * ib + l) % 4 = l := by omega
  have hblock : (2 * ib + l / 2) / 2 = ib := by omega
  have hpair : (2 * ib + l / 2) % 2 = l / 2 := by omega
  have hlow : (packIQ1_M d gridIdx scale deltaNeg).skip 0 (4 * ib + l) =
    BitVec.ofNat 8 (gridIdx ib l &&& 0xFF) := by
    rw [skip_zero, packIQ1_M, join_apply _ _ (by omega), hdiv, hmod]
  have hrest : gridIdx ib l % 2 ^ 8 < 2 ^ 8 := Nat.mod_lt _ (by decide)
  have hone := Bool.toNat_le (deltaNeg (2 * ib + l / 2))
  have hmask : (0x700 : ℕ) = 0x07 <<< 8 := by decide
  have hpart : ∀ l, gridIdx ib l / 2 ^ 8 % 2 ^ 3 < 2 ^ 3 := fun l => Nat.mod_lt _ (by decide)
  have hhigh := toNat_packHighIQ1_M gridIdx deltaNeg (2 * ib + l / 2)
  rw [hblock, hpair] at hhigh
  obtain ⟨hlo, hhi, -, -⟩ := highByte_fields (hpart _) (hpart _) hone hhigh
  simp only [gridIQ1_M, hlow, highByteIQ1_M hib hl]
  rw [hmask, and_shiftLeft, and_mask 8 rfl, toNat_ofNat_byte hrest, or_shiftLeft hrest, and_mask 3 rfl,
    Nat.shiftRight_eq_div_pow, Nat.shiftLeft_eq]
  split_ifs with heven
  · have hl' : 2 * (l / 2) = l := by omega
    rw [hlo, hl']
    omega
  · have hl' : 2 * (l / 2) + 1 = l := by omega
    rw [hhi, hl']
    omega

theorem deltaNegIQ1_M_pack (hib : ib < 8) (hl : l < 4) :
    deltaNegIQ1_M (packIQ1_M d gridIdx scale deltaNeg) ib l = deltaNeg (2 * ib + l / 2) := by
  have hone := Bool.toNat_le (deltaNeg (2 * ib + l / 2))
  obtain ⟨-, -, hlow, hhigh⟩ := highByte_fields (Nat.mod_lt _ (by decide)) (Nat.mod_lt _ (by decide)) hone
    (toNat_packHighIQ1_M gridIdx deltaNeg (2 * ib + l / 2))
  rw [deltaNegIQ1_M, highByteIQ1_M hib hl]
  split_ifs
  · exact and_ne_zero_eq 3 rfl hlow
  · exact and_ne_zero_eq 7 rfl hhigh

end IQ1_M

section IQ4_XS

variable {index : ℕ → ℕ} {i : ℕ}

theorem indexIQ4_XS_pack (hindex : ∀ i < 256, index i < 2 ^ 4) (hi : i < 256) :
    unpackHalvesIQ4 ((packIQ4_XS d scale index).skip 8) i = index i := by
  have hrow : 32 * ((16 * (i / 32) + i % 16) / 16) = 32 * (i / 32) := by omega
  have hcol : (16 * (i / 32) + i % 16) % 16 = i % 16 := by omega
  have hlo := hindex (32 * (i / 32) + i % 16) (by omega)
  have hhi := hindex (32 * (i / 32) + i % 16 + 16) (by omega)
  have hbyte : (packIQ4_XS d scale index).skip 8 (16 * (i / 32) + i % 16) =
      nibbles (index (32 * (i / 32) + i % 16)) (index (32 * (i / 32) + i % 16 + 16)) := by
    rw [packIQ4_XS, join_skip _ _ (by decide), join_skip _ _ (by decide), join_skip_self, join_apply _ _ (by omega)]
    simp only [packHalvesIQ4, hrow, hcol]
    rw [and_mask 4 rfl, and_mask 4 rfl, Nat.mod_eq_of_lt hlo, Nat.mod_eq_of_lt hhi]
  simp only [unpackHalvesIQ4, hbyte, toNat_nibbles hlo hhi]
  rw [and_mask 4 rfl, and_mask 4 rfl, Nat.shiftRight_eq_div_pow]
  split_ifs with hhalf
  · have hi' : 32 * (i / 32) + i % 16 = i := by omega
    rw [hi'] at hlo ⊢
    omega
  · have hi' : 32 * (i / 32) + i % 16 + 16 = i := by omega
    rw [hi'] at hhi ⊢
    omega

theorem scaleIQ4_XS_pack (hscale : ∀ ib < 8, scale ib < 2 ^ 6) (hib : ib < 8) :
    unpackScaleIQ4 (loadU16 ((packIQ4_XS d scale index).skip 2)) ((packIQ4_XS d scale index).skip 4) ib =
    scale ib := by
  have hdigits : ∀ k < 8, (scale k >>> 4) &&& 0x03 < 2 ^ 2 := fun k _ => Nat.and_lt_two_pow _ (by decide)
  have hhigh : loadU16 ((packIQ4_XS d scale index).skip 2) = packScalesHigh scale := by
    rw [packIQ4_XS, join_skip_self, loadU16_join]
  have hdigit : ((packScalesHigh scale).toNat >>> (2 * ib)) &&& 0x03 = (scale ib >>> 4) &&& 0x03 := by
    have hword := packDigits_lt hdigits
    rw [packScalesHigh, BitVec.toNat_ofNat, Nat.mod_eq_of_lt hword]
    exact digitAt_packDigits hdigits hib
  have hlow : (packIQ4_XS d scale index).skip 4 (ib / 2) =
      nibbles (scale (2 * (ib / 2)) % 2 ^ 4) (scale (2 * (ib / 2) + 1) % 2 ^ 4) := by
    rw [packIQ4_XS, join_skip _ _ (by decide), join_skip_self, join_apply _ _ (by omega), packScalesLow,
      and_mask 4 rfl, and_mask 4 rfl]
  have hnibble : ((nibbles (scale (2 * (ib / 2)) % 2 ^ 4) (scale (2 * (ib / 2) + 1) % 2 ^ 4)).toNat >>>
    (4 * (ib % 2)))
      &&& 0x0F = scale ib % 2 ^ 4 := by
    refine (digitAt_nibbles (Nat.mod_lt _ (by decide)) (Nat.mod_lt _ (by decide)) (ib % 2)
      (Nat.mod_lt _ (by decide))).trans ?_
    split_ifs with heven
    · have hib' : 2 * (ib / 2) = ib := by omega
      rw [hib']
      rfl
    · have hib' : 2 * (ib / 2) + 1 = ib := by omega
      rw [hib']
      rfl
  have hbound := hscale ib hib
  rw [unpackScaleIQ4, hhigh, hlow, hnibble, hdigit, or_shiftLeft (Nat.mod_lt _ (by decide)), and_mask 2 rfl,
    Nat.shiftRight_eq_div_pow]
  omega

end IQ4_XS

/-- Every format reads back the fields it packed. -/
theorem readsBack (f : GridFormat) {x : Fields} (h : f.InRange x) : f.ReadsBack (f.read (f.pack x)) x := by
  have hindex := h.index
  have hsigns := h.signs
  have hscale := fun ib hib => h.scale ib hib 0 (by decide)
  cases f with
  | iq2_XXS =>
    simp only [indices, indexBits, signIndex, signBits, scaleIndex, scaleBits] at hindex hsigns hscale
    constructor <;> dsimp only [GridFormat.read, pack, indices, signIndex, scaleIndex]
    · exact loadU16_join x.d _
    · exact fun ib hib l hl => gridIQ2_XXS_pack (hindex ib hib) hib hl
    · intro ib hib l hl
      rw [auxIQ2_XXS_pack hib, unpackSigns_packSignsScale (hsigns ib hib) (hscale ib hib) hl]
    · intro ib hib half _
      rw [auxIQ2_XXS_pack hib, scale_packSignsScale (hsigns ib hib) (hscale ib hib)]
  | iq2_XS =>
    simp only [indices, indexBits, signIndex, signBits, scaleIndex, scaleBits] at hindex hsigns hscale
    constructor <;> dsimp only [GridFormat.read, pack, indices, signIndex, scaleIndex]
    · exact loadU16_join x.d _
    · exact fun ib hib l hl => indexIQ2_XS_pack (hindex ib hib l hl) (hsigns ib hib l hl) hib hl
    · exact fun ib hib l hl => signsIQ2_XS_pack (hindex ib hib l hl) (hsigns ib hib l hl) hib hl
    · exact fun ib hib half _ => scaleIQ2_XS_pack hscale hib half
  | iq2_S =>
    simp only [indices, indexBits, signIndex, signBits, scaleIndex, scaleBits] at hindex hsigns hscale
    constructor <;> dsimp only [GridFormat.read, pack, indices, signIndex, scaleIndex]
    · exact loadU16_join x.d _
    · exact fun ib hib l hl => gridIQ2_S_pack (hindex ib hib) hib hl
    · intro ib hib l hl
      rw [signsIQ2_S_pack hib hl, toNat_ofNat_byte (hsigns ib hib l hl)]
    · exact fun ib hib half _ => scaleIQ2_S_pack hscale hib half
  | iq3_XXS =>
    simp only [indices, indexBits, signIndex, signBits, scaleIndex, scaleBits] at hindex hsigns hscale
    constructor <;> dsimp only [GridFormat.read, pack, indices, signIndex, scaleIndex]
    · exact loadU16_join x.d _
    · exact fun ib hib g hg => gridIQ3_XXS_pack (hindex ib hib g hg) hib hg
    · intro ib hib l hl
      rw [auxIQ3_XXS_pack hib, unpackSigns_packSignsScale (hsigns ib hib) (hscale ib hib) hl]
    · intro ib hib half _
      rw [auxIQ3_XXS_pack hib, scale_packSignsScale (hsigns ib hib) (hscale ib hib)]
  | iq3_S =>
    simp only [indices, indexBits, signIndex, signBits, scaleIndex, scaleBits] at hindex hsigns hscale
    constructor <;> dsimp only [GridFormat.read, pack, indices, signIndex, scaleIndex]
    · exact loadU16_join x.d _
    · exact fun ib hib g hg => gridIQ3_S_pack (hindex ib hib g hg) hib hg
    · intro ib hib l hl
      rw [signsIQ3_S_pack hib hl, toNat_ofNat_byte (hsigns ib hib l hl)]
    · exact fun ib hib half _ => scaleIQ3_S_pack hscale hib
  | iq1_S =>
    simp only [indices, indexBits, signIndex, signBits, scaleIndex, scaleBits] at hindex hsigns hscale
    constructor <;> dsimp only [GridFormat.read, pack, indices, signIndex, scaleIndex]
    · exact loadU16_join x.d _
    · exact fun ib hib l hl => gridIQ1_S_pack (hindex ib hib l hl) hscale hib hl
    · intro ib hib l hl
      rw [deltaNegIQ1_S_pack hscale hib, toNat_bne_zero (hsigns ib hib l hl)]
    · exact fun ib hib half _ => scaleIQ1_S_pack hscale hib
  | iq1_M =>
    have hrange := h.scale
    have hpair : ∀ ib half, half < 2 → (2 * ib + half) / 2 = ib ∧ (2 * ib + half) % 2 = half := by
      intro ib half hhalf
      omega
    simp only [indices, indexBits, signIndex, signBits, scaleIndex, scaleBits] at hindex hsigns hrange
    constructor <;> dsimp only [GridFormat.read, pack, indices, signIndex, scaleIndex]
    · exact superIQ1_M_pack
    · exact fun ib hib l hl => gridIQ1_M_pack (hindex ib hib l hl) hib hl
    · intro ib hib l hl
      obtain ⟨hdiv, hmod⟩ := hpair ib (l / 2) (by omega)
      rw [deltaNegIQ1_M_pack hib hl, hdiv, hmod, toNat_bne_zero (hsigns ib hib l hl)]
    · intro ib hib half hhalf
      obtain ⟨hdiv, hmod⟩ := hpair ib half hhalf
      have hbound : x.scale ((2 * ib + half) / 2) ((2 * ib + half) % 2) < 2 ^ 3 := by
        rw [hdiv, hmod]
        exact hrange ib hib half hhalf
      rw [scaleIQ1_M_pack hbound hib hhalf, hdiv, hmod]
  | iq4_XS =>
    simp only [indices, indexBits, signIndex, signBits, scaleIndex, scaleBits] at hindex hsigns hscale
    constructor <;> dsimp only [GridFormat.read, pack, indices, signIndex, scaleIndex]
    · exact loadU16_join x.d _
    · intro ib hib g hg
      have hdiv : (32 * ib + g) / 32 = ib := by omega
      have hmod : (32 * ib + g) % 32 = g := by omega
      have hall : ∀ i < 256, x.index (i / 32) (i % 32) < 2 ^ 4 := by
        intro i hi
        exact hindex (i / 32) (by omega) (i % 32) (Nat.mod_lt i (by decide))
      rw [indexIQ4_XS_pack hall (by omega), hdiv, hmod]
    · exact fun ib hib l hl => (Nat.lt_one_iff.mp (hsigns ib hib l hl)).symm
    · exact fun ib hib half _ => scaleIQ4_XS_pack hscale hib

end Qtx.GridLayouts
