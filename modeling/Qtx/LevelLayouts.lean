import Qtx.DigitArrays
import Qtx.GridLayouts
import Qtx.LevelFields

/-!
# Layouts of the K-quant and Q5 blocks

The byte arrays that hold the levels and the scales are arrays of digits, or twelve bytes
with the bits of sixteen numbers. Each is read back from what is packed, and every content
of it is packed from what is read.
-/
namespace Qtx.LevelLayouts

open Qtx.ByteStreams Qtx.PackedDigits Qtx.LegacyBlocks Qtx.KQuants Qtx.GridLayouts

/-! Arrays of digits. -/

/-- Two bits of 256 levels. -/
def stripes : DigitArray where
  width := 2
  perByte := 4
  bytes := 64
  count := 256
  home i := 32 * (i / 128) + i % 32
  slot i := i % 128 / 32
  element k t := 128 * (k / 32) + k % 32 + 32 * t
  full := rfl
  home_lt i hi := by omega
  slot_lt i hi := by omega
  element_lt k hk t ht := by omega
  element_home i hi := by omega
  home_element k hk t ht := by omega
  slot_element k hk t ht := by omega

/-- Four bits of 256 levels, 32 elements apart. -/
def pairs : DigitArray where
  width := 4
  perByte := 2
  bytes := 128
  count := 256
  home i := 32 * (i / 64) + i % 32
  slot i := i % 64 / 32
  element k t := 64 * (k / 32) + k % 32 + 32 * t
  full := rfl
  home_lt i hi := by omega
  slot_lt i hi := by omega
  element_lt k hk t ht := by omega
  element_home i hi := by omega
  home_element k hk t ht := by omega
  slot_element k hk t ht := by omega

/-- Four bits of 256 levels, 64 elements apart. -/
def widePairs : DigitArray where
  width := 4
  perByte := 2
  bytes := 128
  count := 256
  home i := 64 * (i / 128) + i % 64
  slot i := i % 128 / 64
  element k t := 128 * (k / 64) + k % 64 + 64 * t
  full := rfl
  home_lt i hi := by omega
  slot_lt i hi := by omega
  element_lt k hk t ht := by omega
  element_home i hi := by omega
  home_element k hk t ht := by omega
  slot_element k hk t ht := by omega

/-- Digits of `width` bits whose byte is their number modulo `bytes`. -/
def columns (width perByte bytes : ℕ) (full : width * perByte = 8) (hpos : 0 < bytes) : DigitArray where
  width := width
  perByte := perByte
  bytes := bytes
  count := bytes * perByte
  home i := i % bytes
  slot i := i / bytes
  element k t := bytes * t + k
  full := full
  home_lt i hi := Nat.mod_lt i hpos
  slot_lt i hi := Nat.div_lt_of_lt_mul hi
  element_lt k hk t ht := by
    have hle := Nat.mul_le_mul_left bytes (Nat.succ_le_of_lt ht)
    rw [Nat.mul_succ] at hle
    omega
  element_home i hi := Nat.div_add_mod i bytes
  home_element k hk t ht := by rw [Nat.mul_add_mod, Nat.mod_eq_of_lt hk]
  slot_element k hk t ht := by rw [Nat.mul_add_div hpos, Nat.div_eq_of_lt hk, Nat.add_zero]

/-- One bit of 256 levels. -/
def highBits : DigitArray := columns 1 8 32 rfl (Nat.zero_lt_succ 31)

/-- Four bits of 32 numbers. -/
def halves : DigitArray := columns 4 2 16 rfl (Nat.zero_lt_succ 15)

/-- Four bits of 16 numbers. -/
def lowScales : DigitArray := columns 4 2 8 rfl (Nat.zero_lt_succ 7)

/-- Two bits of 16 numbers. -/
def highScales : DigitArray := columns 2 4 4 rfl (Nat.zero_lt_succ 3)

/-- One bit of 32 levels. -/
def fifthBits : DigitArray where
  width := 1
  perByte := 8
  bytes := 4
  count := 32
  home i := i / 8
  slot i := i % 8
  element k t := 8 * k + t
  full := rfl
  home_lt i hi := by omega
  slot_lt i hi := by omega
  element_lt k hk t ht := by omega
  element_home i hi := by omega
  home_element k hk t ht := by omega
  slot_element k hk t ht := by omega

section Digits

variable (digit : ℕ → ℕ) (q : Bytes) (i k : ℕ)

theorem packStripes_eq : packStripes digit k = stripes.pack digit k :=
  crumbs_eq (fun t => digit (128 * (k / 32) + k % 32 + 32 * t))

theorem unpackStripes_eq : unpackStripes q i = stripes.unpack q i := rfl

theorem packPairs_eq : packPairs digit k = pairs.pack digit k :=
  nibbles_eq (fun t => digit (64 * (k / 32) + k % 32 + 32 * t))

theorem packLowQ6K_eq : packLowQ6K digit k = widePairs.pack (fun i => digit i &&& 0x0F) k :=
  nibbles_eq (fun t => digit (128 * (k / 64) + k % 64 + 64 * t) &&& 0x0F)

theorem packHalves_eq : packHalves digit k = halves.pack (fun i => digit i &&& 0x0F) k := by
  have hpack := nibbles_eq (fun t => digit (16 * t + k) &&& 0x0F)
  rw [Nat.mul_zero, Nat.zero_add, Nat.mul_one, Nat.add_comm] at hpack
  exact hpack

/-- One of the two digits of a byte. -/
theorem nibble_select (byte : BitVec 8) {t : ℕ} (ht : t < 2) :
    (if t = 0 then byte.toNat &&& 0x0F else byte.toNat >>> 4) = digitAt 4 byte.toNat t := by
  have hlt := byte.isLt
  obtain rfl | rfl : t = 0 ∨ t = 1 := by omega
  · rfl
  · rw [if_neg Nat.one_ne_zero, digitAt_eq, Nat.shiftRight_eq_div_pow]
    omega

theorem unpackPairs_eq : unpackPairs q i = pairs.unpack q i := by
  have hselect := nibble_select (q (32 * (i / 64) + i % 32)) (t := i % 64 / 32) (by omega)
  have hslot : i % 64 / 32 = 0 ↔ i % 64 < 32 := by omega
  simp only [hslot] at hselect
  exact hselect

theorem unpackLowQ6K_eq : unpackLowQ6K q i = widePairs.unpack q i := by
  have hselect := nibble_select (q (64 * (i / 128) + i % 64)) (t := i % 128 / 64) (by omega)
  have hslot : i % 128 / 64 = 0 ↔ i % 128 < 64 := by omega
  simp only [hslot] at hselect
  exact hselect

theorem unpackHalves_eq (hi : i < 32) : unpackHalves q i = halves.unpack q i := by
  have hselect := nibble_select (q (i % 16)) (t := i / 16) (by omega)
  have hslot : i / 16 = 0 ↔ i < 16 := by omega
  simp only [hslot] at hselect
  rw [unpackHalves]
  refine Eq.trans ?_ hselect
  split_ifs with hlow
  · rw [Nat.mod_eq_of_lt hlow]
  · have hmod : i % 16 = i - 16 := by omega
    rw [hmod]

theorem packHighBits_eq (high : ℕ → Bool) : packHighBits high k = highBits.pack (fun i => (high i).toNat) k := by
  rw [packHighBits, bitMask_eq]
  rfl

theorem toNat_highBit : (highBit q i).toNat = highBits.unpack q i := by
  have hbit : 1 <<< (i / 32) = 2 ^ (i / 32) := Nat.one_shiftLeft _
  rw [highBit, toNat_and_ne_zero _ hbit]
  change _ = digitAt 1 (q (i % 32)).toNat (i / 32)
  rw [digitAt_eq, Nat.one_mul, pow_one]

end Digits

/-! Six-bit scales in twelve bytes. -/

section ScalesK4

variable {scale min : ℕ → ℕ} {q : Bytes} {j k : ℕ}

theorem toNat_packScalesMinsK4 (hscale : ∀ j < 8, scale j < 2 ^ 6) (hmin : ∀ j < 8, min j < 2 ^ 6) (hk : k < 12) :
    (packScalesMinsK4 scale min k).toNat =
      if k < 4 then scale k + scale (k + 4) / 2 ^ 4 * 2 ^ 6
      else if k < 8 then min (k - 4) + min k / 2 ^ 4 * 2 ^ 6
      else scale (k - 4) % 2 ^ 4 + min (k - 4) % 2 ^ 4 * 2 ^ 4 := by
  have hfield : ∀ lo hi, lo < 2 ^ 6 → hi < 2 ^ 6 →
      (BitVec.ofNat 8 ((lo &&& 0x3F) ||| ((hi >>> 4) &&& 0x03) <<< 6)).toNat = lo + hi / 2 ^ 4 * 2 ^ 6 := by
    intro lo hi hlo hhi
    have htop : hi / 2 ^ 4 < 2 ^ 2 := by omega
    rw [and_mask 6 rfl, Nat.mod_eq_of_lt hlo, or_shiftLeft hlo, and_mask 2 rfl, Nat.shiftRight_eq_div_pow,
      Nat.mod_eq_of_lt htop, toNat_ofNat_byte (by omega)]
  unfold packScalesMinsK4
  split_ifs with h4 h8
  · exact hfield _ _ (hscale k (by omega)) (hscale (k + 4) (by omega))
  · exact hfield _ _ (hmin (k - 4) (by omega)) (hmin k (by omega))
  · rw [and_mask 4 rfl, and_mask 4 rfl, or_shiftLeft (Nat.mod_lt _ (by decide)), toNat_ofNat_byte (by omega)]

theorem unpackScaleMinK4_pack (hscale : ∀ j < 8, scale j < 2 ^ 6) (hmin : ∀ j < 8, min j < 2 ^ 6)
    (hq : ∀ k < 12, q k = packScalesMinsK4 scale min k) (hj : j < 8) : unpackScaleMinK4 j q = (scale j, min j) := by
  have hbyte : ∀ k < 12, (q k).toNat = _ := fun k hk =>
    (congrArg BitVec.toNat (hq k hk)).trans (toNat_packScalesMinsK4 hscale hmin hk)
  have hs := hscale j hj
  have hm := hmin j hj
  unfold unpackScaleMinK4
  split_ifs with h4
  · have hlo := hbyte j (by omega)
    have hhi := hbyte (j + 4) (by omega)
    rw [if_pos h4] at hlo
    rw [if_neg (by omega), if_pos (by omega), Nat.add_sub_cancel] at hhi
    rw [hlo, hhi, and_mask 6 rfl, and_mask 6 rfl]
    exact Prod.ext (by dsimp only; omega) (by dsimp only; omega)
  · have hboth := hbyte (j + 4) (by omega)
    have hlo := hbyte (j - 4) (by omega)
    have hhi := hbyte j (by omega)
    rw [if_neg (by omega), if_neg (by omega), Nat.add_sub_cancel] at hboth
    rw [if_pos (by omega), Nat.sub_add_cancel (by omega)] at hlo
    rw [if_neg h4, if_pos hj] at hhi
    have hs' := hscale (j - 4) (by omega)
    have hm' := hmin (j - 4) (by omega)
    rw [hboth, hlo, hhi, and_mask 4 rfl, Nat.shiftRight_eq_div_pow, Nat.shiftRight_eq_div_pow,
      Nat.shiftRight_eq_div_pow, or_shiftLeft (by omega), or_shiftLeft (by omega)]
    exact Prod.ext (by dsimp only; omega) (by dsimp only; omega)

/-- The fields of six bits, as the bytes give them. -/
theorem unpackScaleMinK4_eq (q : Bytes) (j : ℕ) : unpackScaleMinK4 j q =
    if j < 4 then ((q j).toNat % 2 ^ 6, (q (j + 4)).toNat % 2 ^ 6)
    else ((q (j + 4)).toNat % 2 ^ 4 + (q (j - 4)).toNat / 2 ^ 6 * 2 ^ 4,
      (q (j + 4)).toNat / 2 ^ 4 + (q j).toNat / 2 ^ 6 * 2 ^ 4) := by
  have hbyte := (q (j + 4)).isLt
  have hhigh : (q (j + 4)).toNat / 2 ^ 4 < 2 ^ 4 := by omega
  unfold unpackScaleMinK4
  split_ifs
  · rw [and_mask 6 rfl, and_mask 6 rfl]
  · rw [and_mask 4 rfl, Nat.shiftRight_eq_div_pow, Nat.shiftRight_eq_div_pow, Nat.shiftRight_eq_div_pow,
      or_shiftLeft (Nat.mod_lt _ (by decide)), or_shiftLeft hhigh]

theorem unpackScaleMinK4_lt (q : Bytes) (j : ℕ) :
    (unpackScaleMinK4 j q).1 < 2 ^ 6 ∧ (unpackScaleMinK4 j q).2 < 2 ^ 6 := by
  have hj := (q j).isLt
  have hplus := (q (j + 4)).isLt
  have hminus := (q (j - 4)).isLt
  rw [unpackScaleMinK4_eq]
  split_ifs
  · exact ⟨Nat.mod_lt _ (by decide), Nat.mod_lt _ (by decide)⟩
  · exact ⟨by dsimp only; omega, by dsimp only; omega⟩

/-- The twelve bytes are packed from what is read. -/
theorem packScalesMinsK4_unpack (hscale : ∀ j < 8, scale j = (unpackScaleMinK4 j q).1)
    (hmin : ∀ j < 8, min j = (unpackScaleMinK4 j q).2) (hk : k < 12) : packScalesMinsK4 scale min k = q k := by
  apply BitVec.eq_of_toNat_eq
  have hbound := unpackScaleMinK4_lt q
  have hbyte := (q k).isLt
  rw [toNat_packScalesMinsK4 (fun j hj => hscale j hj ▸ (hbound j).1) (fun j hj => hmin j hj ▸ (hbound j).2) hk]
  split_ifs with h4 h8
  · rw [hscale k (by omega), hscale (k + 4) (by omega), unpackScaleMinK4_eq, unpackScaleMinK4_eq, if_pos h4,
      if_neg (by omega), Nat.add_sub_cancel]
    dsimp only
    omega
  · rw [hmin (k - 4) (by omega), hmin k (by omega), unpackScaleMinK4_eq, unpackScaleMinK4_eq, if_pos (by omega),
      if_neg h4, Nat.sub_add_cancel (by omega)]
    dsimp only
    have hplus := (q (k + 4)).isLt
    omega
  · have hk' : ¬ k - 4 < 4 := by omega
    have hk'' : k - 4 + 4 = k := by omega
    have hplus := (q (k - 4)).isLt
    have hminus := (q (k - 4 - 4)).isLt
    rw [hscale (k - 4) (by omega), hmin (k - 4) (by omega), unpackScaleMinK4_eq, if_neg hk', hk'']
    dsimp only
    omega

end ScalesK4

/-! Numbers with their high bits apart. -/

section Splits

variable {level : ℕ → ℕ} {q block : Bytes} {i j k : ℕ}

theorem packScalesQ3K_low (scale : ℕ → ℕ) (hk : k < 8) :
    packScalesQ3K scale k = lowScales.pack (fun j => scale j % 2 ^ 4) k := by
  have hpack := nibbles_eq (fun t => scale (8 * t + k) % 2 ^ 4)
  rw [Nat.mul_zero, Nat.zero_add, Nat.mul_one, Nat.add_comm] at hpack
  rw [packScalesQ3K, if_pos hk, and_mask 4 rfl, and_mask 4 rfl]
  exact hpack

theorem packScalesQ3K_high (scale : ℕ → ℕ) (k : ℕ) :
    packScalesQ3K scale (8 + k) = highScales.pack (fun j => scale j / 2 ^ 4) k := by
  have h0 : 8 + k - 8 = 4 * 0 + k := by omega
  have h1 : 8 + k - 4 = 4 * 1 + k := by omega
  have h2 : 8 + k = 4 * 2 + k := by omega
  have h3 : 4 * 2 + k + 4 = 4 * 3 + k := by omega
  have hge : ¬ 8 + k < 8 := by omega
  rw [packScalesQ3K, if_neg hge, h0, h1, h2, h3]
  simp only [Nat.shiftRight_eq_div_pow]
  exact crumbs_eq (fun t => scale (4 * t + k) / 2 ^ 4)

theorem unpackScaleQ3K_eq (q : Bytes) (hj : j < 16) :
    unpackScaleQ3K q j = lowScales.unpack q j + highScales.unpack (q.skip 8) j * 2 ^ 4 := by
  have hselect := nibble_select (q (j % 8)) (t := j / 8) (by omega)
  have hslot : j / 8 = 0 ↔ j < 8 := by omega
  simp only [hslot] at hselect
  have hlow : (if j < 8 then (q j).toNat &&& 0x0F else (q (j - 8)).toNat >>> 4) = lowScales.unpack q j := by
    refine Eq.trans ?_ hselect
    split_ifs with hlt
    · rw [Nat.mod_eq_of_lt hlt]
    · have hmod : j % 8 = j - 8 := by omega
      rw [hmod]
  rw [unpackScaleQ3K, hlow]
  exact or_shiftLeft (lowScales.unpack_lt q j)

theorem unpackScaleQ3K_lt (q : Bytes) (hj : j < 16) : unpackScaleQ3K q j < 2 ^ 6 := by
  rw [unpackScaleQ3K_eq q hj]
  exact lowScales.unpack_split_lt (b := highScales) _ _ j

/-- Taking the highest bit away leaves the low bits. -/
theorem low_eq_mod (w : ℕ) {top n : ℕ} (htop : top + 1 = 2 ^ w) (h : n < 2 ^ (w + 1)) :
    (if top < n then n - (top + 1) else n) = n % 2 ^ w := by
  rw [pow_succ] at h
  split_ifs with hlt
  · rw [htop, Nat.mod_eq_sub_mod (by omega), Nat.mod_eq_of_lt (by omega)]
  · rw [Nat.mod_eq_of_lt (by omega)]

theorem high_eq_div (w : ℕ) {top n : ℕ} (htop : top + 1 = 2 ^ w) (h : n < 2 ^ (w + 1)) :
    (decide (top < n)).toNat = n / 2 ^ w := by
  rw [pow_succ] at h
  by_cases hlt : top < n
  · have hone : n / 2 ^ w = 1 := Nat.div_eq_of_lt_le (by omega) (by omega)
    rw [hone, decide_eq_true hlt, Bool.toNat_true]
  · rw [Nat.div_eq_of_lt (by omega), decide_eq_false hlt, Bool.toNat_false]

theorem packHighBits_level (w : ℕ) {top : ℕ} (htop : top + 1 = 2 ^ w) (hlevel : ∀ i < 256, level i < 2 ^ (w + 1))
    (hk : k < 32) : packHighBits (fun i => top < level i) k = highBits.pack (fun i => level i / 2 ^ w) k := by
  rw [packHighBits_eq]
  exact highBits.pack_congr (fun i hi => high_eq_div w htop (hlevel i hi)) hk

theorem packLowQ3_K (hlevel : ∀ i < 256, level i < 2 ^ 3) (hk : k < 64) :
    packStripes (fun i => if 3 < level i then level i - 4 else level i) k =
      stripes.pack (fun i => level i % 2 ^ 2) k := by
  rw [packStripes_eq]
  exact stripes.pack_congr (fun i hi => low_eq_mod 2 rfl (hlevel i hi)) hk

theorem packLowQ5_K (hlevel : ∀ i < 256, level i < 2 ^ 5) (hk : k < 128) :
    packPairs (fun i => if 15 < level i then level i - 16 else level i) k =
    pairs.pack (fun i => level i % 2 ^ 4) k := by
  rw [packPairs_eq]
  exact pairs.pack_congr (fun i hi => low_eq_mod 4 rfl (hlevel i hi)) hk

theorem unpackQ3_K_eq (block : Bytes) (i : ℕ) : unpackQ3_K block i + 4 =
    (stripes.unpack (block.skip 32) i + highBits.unpack block i * 2 ^ 2 : ℕ) := by
  rw [unpackQ3_K, unpackStripes_eq, ← toNat_highBit]
  cases highBit block i
  · rw [if_neg Bool.false_ne_true, Bool.toNat_false]
    omega
  · rw [if_pos rfl, Bool.toNat_true]
    omega

theorem unpackQ5_K_eq (block : Bytes) (i : ℕ) : unpackQ5_K block i =
    pairs.unpack (block.skip 48) i + highBits.unpack (block.skip 16) i * 2 ^ 4 := by
  rw [unpackQ5_K, unpackPairs_eq, ← toNat_highBit]
  cases highBit (block.skip 16) i <;> rfl

theorem packHighQ6_K (level : ℕ → ℕ) (k : ℕ) :
    packStripes (fun i => level i >>> 4) k = stripes.pack (fun i => level i / 2 ^ 4) k := by
  simp only [packStripes_eq, Nat.shiftRight_eq_div_pow]

theorem unpackQ6_K_eq (block : Bytes) (i : ℕ) : unpackQ6_K block i + 32 =
    (widePairs.unpack block i + stripes.unpack (block.skip 128) i * 2 ^ 4 : ℕ) := by
  have hlt : widePairs.unpack block i < 2 ^ 4 := widePairs.unpack_lt block i
  rw [unpackQ6_K, unpackLowQ6K_eq, unpackStripes_eq, or_shiftLeft hlt, Int.sub_add_cancel]

end Splits

/-! Fifth bits in a word. -/

section Fifth

variable {level : ℕ → ℕ} {qs qh : Bytes} {i k : ℕ}

/-- The loop over two halves of 16 bits writes 32 digits. -/
theorem loop_halves (bit : ℕ → ℕ) (n : ℕ) :
    loop (fun j qh => qh ||| bit j <<< j ||| bit (j + 16) <<< (j + 16)) 0 n =
      packDigits 1 bit n ||| packDigits 1 (fun j => bit (16 + j)) n <<< (1 * 16) := by
  induction n with
  | zero => simp [loop, packDigits]
  | succ n ih =>
    rw [packDigits, packDigits, loop, loop, loop, ih, ← packDigits, ← packDigits, Nat.shiftLeft_or_distrib,
      ← Nat.shiftLeft_add, Nat.one_mul, Nat.add_comm 16 n, Nat.one_mul]
    ac_rfl

theorem packFifth_eq (level : ℕ → ℕ) :
    packFifth level = BitVec.ofNat 32 (packDigits 1 (fun i => (level i &&& 0x10) >>> 4) 32) :=
  congrArg (BitVec.ofNat 32) ((loop_halves (fun i => (level i &&& 0x10) >>> 4) 16).trans
    (packDigits_add 1 _ 16 16).symm)

theorem fifthBits_bytesOf (v : BitVec 32) (i : ℕ) : fifthBits.unpack (bytesOf v) i = digitAt 1 v.toNat i := by
  have hunpack : fifthBits.unpack (bytesOf v) i = digitAt 1 (bytesOf v (i / 8)).toNat (i % 8) := rfl
  rw [hunpack, toNat_bytesOf, digitAt_digitAt 1 8 _ _ (Nat.mod_lt _ (by decide)), Nat.div_add_mod]

theorem fifthBits_loadU32 (qh : Bytes) (hi : i < 32) : fifthBits.unpack qh i = digitAt 1 (loadU32 qh).toNat i := by
  have hbyte : bytesOf (loadU32 qh) (i / 8) = qh (i / 8) := bytesOf_loadU32 qh (by omega)
  rw [← fifthBits_bytesOf]
  exact congrArg (fun byte => digitAt 1 (BitVec.toNat byte) (i % 8)) hbyte.symm

theorem bytesOf_packFifth (hlevel : ∀ i < 32, level i < 2 ^ 5) (hk : k < 4) :
    bytesOf (packFifth level) k = fifthBits.pack (fun i => level i / 2 ^ 4) k := by
  have hbit : ∀ i, (level i &&& 0x10) >>> 4 = level i / 2 ^ 4 % 2 ^ 1 := by
    intro i
    rw [Nat.shiftRight_and_distrib, Nat.shiftRight_eq_div_pow]
    exact and_mask 1 rfl _
  refine (fifthBits.pack_unpack (fun i hi => ?_) hk).symm
  have hlt := hlevel i hi
  have hdigits : ∀ i < 32, level i / 2 ^ 4 % 2 ^ 1 < 2 ^ 1 := fun i _ => Nat.mod_lt _ (by decide)
  have hword := packDigits_lt hdigits
  simp only [packFifth_eq, hbit]
  rw [fifthBits_bytesOf, BitVec.toNat_ofNat, Nat.mod_eq_of_lt hword, digitAt_packDigits hdigits hi]
  omega

theorem unpackFifth_eq (v : BitVec 32) (hi : i < 32) : unpackFifth v i = digitAt 1 v.toNat i <<< 4 := by
  have hmask : ∀ x, x &&& 0x10 = ((x >>> 4) &&& 1) <<< 4 := fun x => and_shiftLeft x 1 4
  have hdigit : digitAt 1 v.toNat i = (v.toNat >>> i) &&& 1 := by
    rw [digitAt, Nat.one_mul]
    rfl
  rw [unpackFifth, hdigit]
  split_ifs with h16
  · rw [hmask, Nat.shiftLeft_shiftRight]
  · have hsum : i - 16 + 12 + 4 = i := by omega
    rw [hmask, ← Nat.shiftRight_add, hsum]

theorem unpackFive_eq (qs qh : Bytes) (hi : i < 32) : unpackHalves qs i ||| unpackFifth (loadU32 qh) i =
    halves.unpack qs i + fifthBits.unpack qh i * 2 ^ 4 := by
  rw [unpackHalves_eq _ _ hi, unpackFifth_eq _ hi, fifthBits_loadU32 qh hi]
  exact or_shiftLeft (halves.unpack_lt qs i)

end Fifth

/-! What the bytes of a field say. -/

section Readings

variable {level scale min : ℕ → ℕ} {q qs qh block : Bytes}

theorem loadU16_iff (p : Bytes) (x : BitVec 16) : (∀ k < 2, p k = bytesOf x k) ↔ loadU16 p = x := by
  constructor
  · exact loadU16_eq
  · rintro rfl k hk
    exact (bytesOf_loadU16 p hk).symm

theorem levelsQ2_K_iff (hlevel : ∀ i < 256, level i < 2 ^ 2) :
    (∀ k < 64, q k = packStripes level k) ↔ ∀ i < 256, unpackStripes q i = level i := by
  simp only [packStripes_eq, unpackStripes_eq]
  exact stripes.pack_iff hlevel

theorem levelsQ4_K_iff (hlevel : ∀ i < 256, level i < 2 ^ 4) :
    (∀ k < 128, q k = packPairs level k) ↔ ∀ i < 256, unpackPairs q i = level i := by
  simp only [packPairs_eq, unpackPairs_eq]
  exact pairs.pack_iff hlevel

theorem levelsQ3_K_iff (hlevel : ∀ i < 256, level i < 2 ^ 3) :
    ((∀ k < 32, block k = packHighBits (fun i => 3 < level i) k) ∧
        ∀ k < 64, block.skip 32 k = packStripes (fun i => if 3 < level i then level i - 4 else level i) k) ↔
      ∀ i < 256, unpackQ3_K block i + 4 = level i := by
  simp only [unpackQ3_K_eq, Nat.cast_inj]
  rw [and_comm]
  refine Iff.trans (and_congr ?_ ?_) (stripes.split_iff (b := highBits) rfl hlevel)
  · refine forall₂_congr fun k hk => ?_
    rw [packLowQ3_K hlevel hk]
    rfl
  · refine forall₂_congr fun k hk => ?_
    rw [packHighBits_level 2 rfl hlevel hk]
    rfl

theorem levelsQ5_K_iff (hlevel : ∀ i < 256, level i < 2 ^ 5) :
    ((∀ k < 32, block.skip 16 k = packHighBits (fun i => 15 < level i) k) ∧
        ∀ k < 128, block.skip 48 k = packPairs (fun i => if 15 < level i then level i - 16 else level i) k) ↔
      ∀ i < 256, unpackQ5_K block i = level i := by
  simp only [unpackQ5_K_eq]
  rw [and_comm]
  refine Iff.trans (and_congr ?_ ?_) (pairs.split_iff (b := highBits) rfl hlevel)
  · refine forall₂_congr fun k hk => ?_
    rw [packLowQ5_K hlevel hk]
    rfl
  · refine forall₂_congr fun k hk => ?_
    rw [packHighBits_level 4 rfl hlevel hk]
    rfl

theorem levelsQ6_K_iff (hlevel : ∀ i < 256, level i < 2 ^ 6) :
    ((∀ k < 128, block k = packLowQ6K level k) ∧
        ∀ k < 64, block.skip 128 k = packStripes (fun i => level i >>> 4) k) ↔
      ∀ i < 256, unpackQ6_K block i + 32 = level i := by
  simp only [unpackQ6_K_eq, Nat.cast_inj, packLowQ6K_eq, packHighQ6_K, and_mask 4 rfl]
  exact widePairs.split_iff (b := stripes) rfl hlevel

theorem fiveBits_iff (hlevel : ∀ i < 32, level i < 2 ^ 5) :
    ((∀ k < 4, qh k = bytesOf (packFifth level) k) ∧ ∀ k < 16, qs k = packHalves level k) ↔
      ∀ i < 32, unpackHalves qs i ||| unpackFifth (loadU32 qh) i = level i := by
  have hread : ∀ i < 32, unpackHalves qs i ||| unpackFifth (loadU32 qh) i =
      halves.unpack qs i + fifthBits.unpack qh i * 2 ^ 4 := fun i hi => unpackFive_eq qs qh hi
  rw [and_comm]
  refine Iff.trans (and_congr ?_ ?_) (Iff.trans (halves.split_iff (b := fifthBits) (p := qs)
    (q := qh) rfl hlevel) ?_)
  · simp only [packHalves_eq, and_mask 4 rfl]
    exact Iff.rfl
  · refine forall₂_congr fun k hk => ?_
    rw [bytesOf_packFifth hlevel hk]
    rfl
  · refine forall₂_congr fun i hi => ?_
    rw [hread i hi]
    rfl

theorem scalesQ2_K_iff (hscale : ∀ j < 16, scale j < 2 ^ 4) (hmin : ∀ j < 16, min j < 2 ^ 4) :
    (∀ j < 16, q j = nibbles (scale j) (min j)) ↔
      (∀ j < 16, (unpackScaleMinQ2K q j).1 = scale j) ∧ ∀ j < 16, (unpackScaleMinQ2K q j).2 = min j := by
  have hread : ∀ j, unpackScaleMinQ2K q j = (digitAt 4 (q j).toNat 0, digitAt 4 (q j).toNat 1) := fun j =>
    Prod.ext rfl (nibble_select (q j) (by decide : 1 < 2))
  rw [← forall₂_and]
  refine forall₂_congr fun j hj => ?_
  rw [hread]
  constructor
  · intro h
    rw [h, digitAt_nibbles (hscale j hj) (hmin j hj) 0 (by decide),
      digitAt_nibbles (hscale j hj) (hmin j hj) 1 (by decide)]
    exact ⟨rfl, rfl⟩
  · rintro ⟨hlow, hhigh⟩
    rw [← hlow, ← hhigh, nibbles_digitAt]

theorem scalesQ3_K_iff (hscale : ∀ j < 16, scale j < 2 ^ 6) :
    (∀ k < 12, q k = packScalesQ3K scale k) ↔ ∀ j < 16, unpackScaleQ3K q j = scale j := by
  have hparts : (∀ k < 12, q k = packScalesQ3K scale k) ↔
      (∀ k < 8, q k = packScalesQ3K scale k) ∧ ∀ k < 4, q.skip 8 k = packScalesQ3K scale (8 + k) := by
    constructor
    · exact fun h => ⟨fun k hk => h k (by omega), fun k hk => h (8 + k) (by omega)⟩
    · rintro ⟨hlow, hhigh⟩ k hk
      by_cases hlt : k < 8
      · exact hlow k hlt
      · have hsub : 8 + (k - 8) = k := by omega
        have hbyte := hhigh (k - 8) (by omega)
        rwa [skip_apply, hsub] at hbyte
  rw [hparts]
  refine Iff.trans (and_congr ?_ ?_) (Iff.trans (lowScales.split_iff (b := highScales) (p := q)
    (q := q.skip 8) rfl hscale) ?_)
  · refine forall₂_congr fun k hk => ?_
    rw [packScalesQ3K_low scale hk]
    rfl
  · refine forall₂_congr fun k hk => ?_
    rw [packScalesQ3K_high scale k]
    rfl
  · refine forall₂_congr fun j hj => ?_
    rw [unpackScaleQ3K_eq q hj]
    rfl

theorem scalesK4_iff (hscale : ∀ j < 8, scale j < 2 ^ 6) (hmin : ∀ j < 8, min j < 2 ^ 6) :
    (∀ k < 12, q k = packScalesMinsK4 scale min k) ↔
      (∀ j < 8, (unpackScaleMinK4 j q).1 = scale j) ∧ ∀ j < 8, (unpackScaleMinK4 j q).2 = min j := by
  constructor
  · intro h
    have hread := fun j (hj : j < 8) => unpackScaleMinK4_pack hscale hmin h hj
    exact ⟨fun j hj => congrArg Prod.fst (hread j hj), fun j hj => congrArg Prod.snd (hread j hj)⟩
  · rintro ⟨hscales, hmins⟩ k hk
    exact (packScalesMinsK4_unpack (fun j hj => (hscales j hj).symm) (fun j hj => (hmins j hj).symm) hk).symm

theorem scalesQ6_K_iff {scale : ℕ → ℤ} (hscale : ∀ j < 16, -128 ≤ scale j ∧ scale j < 128) :
    (∀ j < 16, q j = BitVec.ofInt 8 (scale j)) ↔ ∀ j < 16, (q j).toInt = scale j := by
  refine forall₂_congr fun j hj => ?_
  constructor
  · intro h
    rw [h, BitVec.toInt_ofInt]
    exact Int.bmod_eq_of_le (hscale j hj).1 (hscale j hj).2
  · intro h
    rw [← h, BitVec.ofInt_toInt]

end Readings

end Qtx.LevelLayouts
