import Qtx.ByteStreams

/-!
# Vector registers

A register is its lanes, a mask register one truth value a lane. The integer
instructions work lane by lane; the comparison is signed.
-/
namespace Qtx.VectorLanes

open Qtx.ByteStreams

abbrev Vec (n w : ℕ) := Fin n → BitVec w

abbrev Mask (n : ℕ) := Fin n → Bool

variable {n w : ℕ}

def set1 (x : BitVec w) : Vec n w := fun _ => x

def and (a b : Vec n w) : Vec n w := fun l => a l &&& b l

def or (a b : Vec n w) : Vec n w := fun l => a l ||| b l

def add (a b : Vec n w) : Vec n w := fun l => a l + b l

def srli (a : Vec n w) (k : ℕ) : Vec n w := fun l => a l >>> k

def slli (a : Vec n w) (k : ℕ) : Vec n w := fun l => a l <<< k

def cmpgt (a b : Vec n w) : Mask n := fun l => (b l).slt (a l)

def cmpeq (a b : Vec n w) : Mask n := fun l => a l == b l

def kor (a b : Mask n) : Mask n := fun l => a l || b l

/-- The second mask without the first. -/
def kandn (a b : Mask n) : Mask n := fun l => !a l && b l

/-- The lanes of the second register where the mask is set. -/
def maskBlend (k : Mask n) (a b : Vec n w) : Vec n w := fun l => if k l then b l else a l

def xor (a b : Vec n w) : Vec n w := fun l => a l ^^^ b l

def sub (a b : Vec n w) : Vec n w := fun l => a l - b l

/-- The smaller of two lanes, as signed integers. -/
def minS (a b : Vec n w) : Vec n w := fun l => if (a l).slt (b l) then a l else b l

def maxS (a b : Vec n w) : Vec n w := fun l => if (a l).slt (b l) then b l else a l

/-- The low bits of every lane. -/
def cvtLow (v : ℕ) (a : Vec n w) : Vec n v := fun l => (a l).setWidth v

def cvtSigned (v : ℕ) (a : Vec n w) : Vec n v := fun l => (a l).signExtend v

/-- The nearest signed integer of `v` bits. -/
def saturateInt (v : ℕ) (i : ℤ) : BitVec v := BitVec.ofInt v (max (-2 ^ (v - 1)) (min (2 ^ (v - 1) - 1) i))

def saturate (v : ℕ) (x : BitVec w) : BitVec v := saturateInt v x.toInt

def cvtSaturated (v : ℕ) (a : Vec n w) : Vec n v := fun l => saturate v (a l)

/-! Bytes and half words of one register. -/

def halves (a : Vec (2 * n) 8) : Vec n 16 := fun l => a ⟨2 * l + 1, by omega⟩ ++ a ⟨2 * l, by omega⟩

def bytesOfHalves (a : Vec n 16) : Vec (2 * n) 8 := fun k => (a ⟨k / 2, by omega⟩ >>> (8 * (k % 2 : ℕ))).setWidth 8

/-! Instructions that move lanes. -/

/-- Both halves of the result take the lanes of the same half of the first and of the second register. -/
def packs (v m : ℕ) (a b : Vec (2 * m) w) : Vec (4 * m) v := fun ⟨k, hk⟩ =>
  have hdiv : k / (2 * m) < 2 := Nat.div_lt_of_lt_mul (by omega)
  have hmul : k / (2 * m) * m ≤ 1 * m := Nat.mul_le_mul_right m (Nat.le_of_lt_succ hdiv)
  have hmod : k % (2 * m) < 2 * m := Nat.mod_lt _ (by omega)
  if h : k % (2 * m) < m then saturate v (a ⟨k / (2 * m) * m + k % (2 * m), by omega⟩)
  else saturate v (b ⟨k / (2 * m) * m + (k % (2 * m) - m), by omega⟩)

def packsEpi32 : Vec 8 32 → Vec 8 32 → Vec 16 16 := packs 16 4

def packsEpi16 : Vec 16 16 → Vec 16 16 → Vec 32 8 := packs 8 8

/-- The double words of a register in the order of the indices. -/
def permutevar8x32 (a : Vec 32 8) (idx : Fin 8 → Fin 8) : Vec 32 8 := fun k =>
  let i := idx ⟨k / 4, by omega⟩
  have hi : (i : ℕ) < 8 := i.isLt
  a ⟨4 * i + k % 4, by omega⟩

/-- Bytes picked by index, zero where the index is negative. -/
def shuffleEpi8 (a idx : Vec 16 8) : Vec 16 8 := fun k =>
  if (idx k).msb then 0#8 else a ⟨(idx k).toNat % 16, Nat.mod_lt _ (by decide)⟩

def unpackloEpi8 (a b : Vec 16 8) : Vec 16 8 := fun k =>
  if (k : ℕ) % 2 = 0 then a ⟨k / 2, by omega⟩ else b ⟨k / 2, by omega⟩

def unpackhiEpi8 (a b : Vec 16 8) : Vec 16 8 := fun k =>
  if (k : ℕ) % 2 = 0 then a ⟨8 + k / 2, by omega⟩ else b ⟨8 + k / 2, by omega⟩

def unpackloEpi64 (a b : Vec 16 8) : Vec 16 8 := fun k =>
  if h : (k : ℕ) < 8 then a k else b ⟨k - 8, by omega⟩

/-- Products of unsigned and signed bytes, added in pairs. -/
def maddubs (a b : Vec (2 * n) 8) : Vec n 16 := fun l =>
  saturateInt 16 ((a ⟨2 * l, by omega⟩).toNat * (b ⟨2 * l, by omega⟩).toInt +
    (a ⟨2 * l + 1, by omega⟩).toNat * (b ⟨2 * l + 1, by omega⟩).toInt)

def loadBytes (n : ℕ) (p : Bytes) : Vec n 8 := fun l => p l

def storeBytes (a : Vec n 8) : Bytes := fun k => if h : k < n then a ⟨k, h⟩ else 0

def loadHalves (n : ℕ) (p : Bytes) : Vec n 16 := fun l => loadU16 (p.skip (2 * l))

def loadWords (n : ℕ) (p : Bytes) : Vec n 32 := fun l => wordAt p l

/-- The bytes of the half words in the lanes. -/
def storeHalves (a : Vec n 16) : Bytes := fun k => if h : k / 2 < n then bytesOf (a ⟨k / 2, h⟩) (k % 2) else 0

def storeWords (a : Vec n 32) : Bytes := fun k => if h : k / 4 < n then bytesOf (a ⟨k / 4, h⟩) (k % 4) else 0

theorem toInt_minS (a b : Vec n w) (l : Fin n) : (minS a b l).toInt = min (a l).toInt (b l).toInt := by
  simp only [minS, BitVec.slt_eq_decide, decide_eq_true_eq]
  split_ifs with h
  · exact (min_eq_left h.le).symm
  · exact (min_eq_right (not_lt.mp h)).symm

theorem toInt_maxS (a b : Vec n w) (l : Fin n) : (maxS a b l).toInt = max (a l).toInt (b l).toInt := by
  simp only [maxS, BitVec.slt_eq_decide, decide_eq_true_eq]
  split_ifs with h
  · exact (max_eq_right h.le).symm
  · exact (max_eq_left (not_lt.mp h)).symm

theorem toInt_saturateInt {v : ℕ} (hv : 0 < v) (i : ℤ) :
    (saturateInt v i).toInt = max (-2 ^ (v - 1)) (min (2 ^ (v - 1) - 1) i) := by
  have hpos : (0 : ℤ) < 2 ^ (v - 1) := Int.pow_pos (by decide)
  apply BitVec.toInt_ofInt_eq_self hv
  · exact le_max_left _ _
  · omega

/-- The two interleavings together. -/
theorem unpack_apply (a b : Vec 16 8) (i : Fin 32) :
    (if h : (i : ℕ) < 16 then unpackloEpi8 a b ⟨i, h⟩ else unpackhiEpi8 a b ⟨i - 16, by omega⟩) =
      if (i : ℕ) % 2 = 0 then a ⟨i / 2, by omega⟩ else b ⟨i / 2, by omega⟩ := by
  by_cases h : (i : ℕ) < 16
  · simp only [h, dite_true, unpackloEpi8]
  · have hparity : ((i : ℕ) - 16) % 2 = i % 2 := by omega
    have hpair : 8 + ((i : ℕ) - 16) / 2 = i / 2 := by omega
    simp only [h, dite_false, unpackhiEpi8, hparity, hpair]

theorem storeBytes_apply (a : Vec n 8) (l : Fin n) : storeBytes a l = a l := dif_pos l.isLt

theorem storeHalves_apply (a : Vec n 16) (l : Fin n) {k : ℕ} (hk : k < 2) :
    storeHalves a (2 * l + k) = bytesOf (a l) k := by
  have hdiv : (2 * (l : ℕ) + k) / 2 = l := by omega
  have hmod : (2 * (l : ℕ) + k) % 2 = k := by omega
  simp only [storeHalves, hdiv, hmod, l.isLt, dite_true]

end Qtx.VectorLanes
