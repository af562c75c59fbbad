import Qtx.PackedDigits

/-!
# Digits spread over an array of bytes

The digits of a sequence lie in an array of bytes, each in a place of its own, and fill all
bytes. Writing the digits and reading them are inverse to each other, in both directions.
-/
namespace Qtx.PackedDigits

/-- Where every digit of a sequence lies: its byte and its position there. -/
structure DigitArray where
  width : ℕ
  perByte : ℕ
  bytes : ℕ
  count : ℕ
  home : ℕ → ℕ
  slot : ℕ → ℕ
  element : ℕ → ℕ → ℕ
  full : width * perByte = 8
  home_lt : ∀ i < count, home i < bytes
  slot_lt : ∀ i < count, slot i < perByte
  element_lt : ∀ k < bytes, ∀ t < perByte, element k t < count
  element_home : ∀ i < count, element (home i) (slot i) = i
  home_element : ∀ k < bytes, ∀ t < perByte, home (element k t) = k
  slot_element : ∀ k < bytes, ∀ t < perByte, slot (element k t) = t

namespace DigitArray

variable (a : DigitArray)

def pack (digit : ℕ → ℕ) (k : ℕ) : BitVec 8 :=
  BitVec.ofNat 8 (packDigits a.width (fun t => digit (a.element k t)) a.perByte)

def unpack (q : ℕ → BitVec 8) (i : ℕ) : ℕ := digitAt a.width (q (a.home i)).toNat (a.slot i)

variable {a} {digit : ℕ → ℕ} {q : ℕ → BitVec 8} {i k : ℕ}

theorem unpack_lt (q : ℕ → BitVec 8) (i : ℕ) : a.unpack q i < 2 ^ a.width := digitAt_lt _ _ _

/-- Every digit is read back from an array that holds the packed bytes. -/
theorem unpack_pack (hdigit : ∀ i < a.count, digit i < 2 ^ a.width) (hq : ∀ k < a.bytes, q k = a.pack digit k)
    (hi : i < a.count) : a.unpack q i = digit i := by
  have hhome := a.home_lt i hi
  have hdigits : ∀ t < a.perByte, digit (a.element (a.home i) t) < 2 ^ a.width :=
    fun t ht => hdigit _ (a.element_lt _ hhome t ht)
  have hbyte := packDigits_lt hdigits
  rw [a.full] at hbyte
  rw [unpack, hq _ hhome, pack, BitVec.toNat_ofNat, Nat.mod_eq_of_lt hbyte,
    digitAt_packDigits hdigits (a.slot_lt i hi), a.element_home i hi]

/-- Every byte is the packing of the digits it is read as. -/
theorem pack_unpack (hdigit : ∀ i < a.count, digit i = a.unpack q i) (hk : k < a.bytes) : a.pack digit k = q k := by
  have hdigits : packDigits a.width (fun t => digit (a.element k t)) a.perByte =
      packDigits a.width (digitAt a.width (q k).toNat) a.perByte := by
    apply packDigits_congr
    intro t ht
    rw [hdigit _ (a.element_lt k hk t ht), unpack, a.home_element k hk t ht, a.slot_element k hk t ht]
  rw [pack, hdigits, packDigits_digitAt, a.full, Nat.mod_eq_of_lt (q k).isLt, BitVec.ofNat_toNat,
    BitVec.setWidth_eq]

/-- Bytes are packed from digits exactly when these are read from them. -/
theorem pack_iff (hdigit : ∀ i < a.count, digit i < 2 ^ a.width) :
    (∀ k < a.bytes, q k = a.pack digit k) ↔ ∀ i < a.count, a.unpack q i = digit i := by
  constructor
  · exact fun h i hi => unpack_pack hdigit h hi
  · exact fun h k hk => (pack_unpack (fun i hi => (h i hi).symm) hk).symm

/-- The bytes depend on the digits of the sequence only. -/
theorem pack_congr {digit' : ℕ → ℕ} (h : ∀ i < a.count, digit i = digit' i) (hk : k < a.bytes) :
    a.pack digit k = a.pack digit' k :=
  congrArg (BitVec.ofNat 8) (packDigits_congr (fun t ht => h _ (a.element_lt k hk t ht)))

/-! Numbers with their low bits in one array and their high bits in another. -/

variable {b : DigitArray} {level : ℕ → ℕ} {p : ℕ → BitVec 8}

theorem unpack_split_lt (p q : ℕ → BitVec 8) (i : ℕ) :
    a.unpack p i + b.unpack q i * 2 ^ a.width < 2 ^ (a.width + b.width) := by
  have hlow := a.unpack_lt p i
  have hstep : (b.unpack q i + 1) * 2 ^ a.width ≤ 2 ^ b.width * 2 ^ a.width :=
    Nat.mul_le_mul_right _ (b.unpack_lt q i)
  rw [Nat.succ_mul, ← pow_add, Nat.add_comm b.width] at hstep
  omega

theorem split_iff (hcount : b.count = a.count) (hlevel : ∀ i < a.count, level i < 2 ^ (a.width + b.width)) :
    ((∀ k < a.bytes, p k = a.pack (fun i => level i % 2 ^ a.width) k) ∧
        ∀ k < b.bytes, q k = b.pack (fun i => level i / 2 ^ a.width) k) ↔
      ∀ i < a.count, a.unpack p i + b.unpack q i * 2 ^ a.width = level i := by
  have hquot : ∀ i < b.count, level i / 2 ^ a.width < 2 ^ b.width := fun i hi =>
    Nat.div_lt_of_lt_mul ((hlevel i (hcount ▸ hi)).trans_eq (pow_add 2 _ _))
  rw [pack_iff (fun i _ => Nat.mod_lt _ (Nat.two_pow_pos _)), pack_iff hquot]
  constructor
  · rintro ⟨hlow, hhigh⟩ i hi
    rw [hlow i hi, hhigh i (hcount ▸ hi)]
    exact Nat.mod_add_div' _ _
  · intro h
    constructor
    · intro i hi
      rw [← h i hi, Nat.add_mul_mod_self_right, Nat.mod_eq_of_lt (a.unpack_lt p i)]
    · intro i hi
      rw [← h i (hcount ▸ hi), Nat.add_mul_div_right _ _ (Nat.two_pow_pos _), Nat.div_eq_of_lt (a.unpack_lt p i),
        Nat.zero_add]

end DigitArray

/-- A byte of two digits. -/
theorem nibbles_eq (digit : ℕ → ℕ) : nibbles (digit 0) (digit 1) = BitVec.ofNat 8 (packDigits 4 digit 2) := by
  simp [nibbles, packDigits, loop]

/-- A byte of four digits. -/
theorem crumbs_eq (digit : ℕ → ℕ) :
    crumbs (digit 0) (digit 1) (digit 2) (digit 3) = BitVec.ofNat 8 (packDigits 2 digit 4) := by
  simp [crumbs, packDigits, loop]

end Qtx.PackedDigits
