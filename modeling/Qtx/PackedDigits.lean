import Mathlib.Data.BitVec
import Mathlib.Data.Nat.Bitwise
import Mathlib.Tactic.Ring

/-!
# Digits packed into words

A loop runs a step for every index in turn. Digits of `w` bits each are ored into a word
one above the other and read back by shifting and masking. Packing and reading are inverse
to each other on digits that are in range and words that are not too large.
-/
namespace Qtx.PackedDigits

/-- The state after the steps `0, …, n - 1`. -/
def loop {σ : Type*} (step : ℕ → σ → σ) (s : σ) : ℕ → σ
  | 0 => s
  | n + 1 => step n (loop step s n)

theorem loop_induction {σ : Type*} {step : ℕ → σ → σ} {s : σ} (P : ℕ → σ → Prop) {n : ℕ} (start : P 0 s)
    (next : ∀ k < n, ∀ s', P k s' → P (k + 1) (step k s')) : P n (loop step s n) := by
  induction n with
  | zero => exact start
  | succ n ih =>
    apply next n (Nat.lt_succ_self n)
    exact ih (fun k hk s' => next k (Nat.lt_succ_of_lt hk) s')

/-- Only the steps that are taken matter. -/
theorem loop_congr {σ : Type*} {step step' : ℕ → σ → σ} (s : σ) {n : ℕ}
    (h : ∀ k < n, ∀ s', step k s' = step' k s') :
    loop step s n = loop step' s n := by
  induction n with
  | zero => rfl
  | succ n ih => rw [loop, loop, ih fun k hk => h k (Nat.lt_succ_of_lt hk), h n (Nat.lt_succ_self n)]

def packDigits (w : ℕ) (digit : ℕ → ℕ) (n : ℕ) : ℕ := loop (fun k acc => acc ||| digit k <<< (w * k)) 0 n

def digitAt (w x k : ℕ) : ℕ := (x >>> (w * k)) &&& (2 ^ w - 1)

variable {w n k x : ℕ} {digit : ℕ → ℕ}

theorem digitAt_eq (w x k : ℕ) : digitAt w x k = x / 2 ^ (w * k) % 2 ^ w := by
  rw [digitAt, Nat.and_two_pow_sub_one_eq_mod, Nat.shiftRight_eq_div_pow]

/-- A mask of `w` low bits takes the rest by `2 ^ w`. -/
theorem and_mask (w : ℕ) {m : ℕ} (hm : m + 1 = 2 ^ w) (x : ℕ) : x &&& m = x % 2 ^ w := by
  rw [← Nat.and_two_pow_sub_one_eq_mod, ← hm, Nat.add_sub_cancel]

theorem and_shiftLeft (x m s : ℕ) : x &&& m <<< s = ((x >>> s) &&& m) <<< s := by
  apply Nat.eq_of_testBit_eq
  intro i
  by_cases h : s ≤ i <;> simp [Nat.testBit_shiftLeft, h]

/-- A test of one bit. -/
theorem toNat_and_ne_zero (s : ℕ) {m : ℕ} (hm : m = 2 ^ s) (x : ℕ) : (x &&& m != 0).toNat = x / 2 ^ s % 2 := by
  have hpos : 0 < 2 ^ s := Nat.two_pow_pos s
  rw [hm, Nat.and_two_pow, ← Nat.toNat_testBit]
  cases x.testBit s
  · simp
  · have hne : 2 ^ s ≠ 0 := Nat.ne_of_gt hpos
    simp

theorem and_ne_zero_eq (s : ℕ) {m : ℕ} (hm : m = 2 ^ s) {x : ℕ} {b : Bool} (h : x / 2 ^ s % 2 = b.toNat) :
    (x &&& m != 0) = b := by
  have hbit := (toNat_and_ne_zero s hm x).trans h
  cases b
  · exact Bool.toNat_eq_zero.mp hbit
  · exact Bool.toNat_eq_one.mp hbit

theorem digitAt_lt (w x k : ℕ) : digitAt w x k < 2 ^ w := by
  rw [digitAt_eq]
  exact Nat.mod_lt _ (Nat.two_pow_pos w)

/-- Oring in a value above a smaller one adds it. -/
theorem or_shiftLeft {a b s : ℕ} (ha : a < 2 ^ s) : a ||| b <<< s = a + b * 2 ^ s := by
  rw [Nat.or_comm, ← Nat.shiftLeft_add_eq_or_of_lt ha, Nat.shiftLeft_eq, Nat.add_comm]

theorem packDigits_succ_of_lt (h : packDigits w digit n < 2 ^ (w * n)) :
    packDigits w digit (n + 1) = packDigits w digit n + digit n * 2 ^ (w * n) :=
  or_shiftLeft h

theorem packDigits_lt (h : ∀ k < n, digit k < 2 ^ w) : packDigits w digit n < 2 ^ (w * n) := by
  induction n with
  | zero => exact Nat.one_pos
  | succ n ih =>
    have hlt := ih (fun k hk => h k (Nat.lt_succ_of_lt hk))
    have hstep : (digit n + 1) * 2 ^ (w * n) ≤ 2 ^ w * 2 ^ (w * n) :=
      Nat.mul_le_mul_right _ (h n (Nat.lt_succ_self n))
    rw [packDigits_succ_of_lt hlt, Nat.mul_succ, Nat.pow_add, Nat.mul_comm (2 ^ (w * n))]
    rw [Nat.succ_mul] at hstep
    omega

theorem packDigits_succ (h : ∀ k < n, digit k < 2 ^ w) :
    packDigits w digit (n + 1) = packDigits w digit n + digit n * 2 ^ (w * n) :=
  packDigits_succ_of_lt (packDigits_lt h)

/-- What lies above the first `n` digits does not change them. -/
theorem digitAt_add (x y : ℕ) (hk : k < n) : digitAt w (x + y * 2 ^ (w * n)) k = digitAt w x k := by
  have hexp : w * n = w * (n - k - 1) + w + w * k := by
    have hn : n = n - k - 1 + 1 + k := by omega
    conv_lhs => rw [hn]
    ring
  have hsplit : y * 2 ^ (w * n) = y * 2 ^ (w * (n - k - 1)) * 2 ^ w * 2 ^ (w * k) := by
    rw [hexp, pow_add, pow_add]
    ring
  rw [digitAt_eq, digitAt_eq, hsplit, Nat.add_mul_div_right _ _ (Nat.two_pow_pos _), Nat.add_mul_mod_self_right]

/-- A digit of a longer digit. -/
theorem digitAt_digitAt (w m x k : ℕ) {t : ℕ} (ht : t < m) :
    digitAt w (digitAt (w * m) x k) t = digitAt w x (m * k + t) := by
  have hsplit : x / 2 ^ (w * m * k) =
      x / 2 ^ (w * m * k) % 2 ^ (w * m) + x / 2 ^ (w * m * k) / 2 ^ (w * m) * 2 ^ (w * m) :=
    (Nat.mod_add_div' _ _).symm
  have hexp : w * (m * k + t) = w * m * k + w * t := by ring
  have hdigit : digitAt w x (m * k + t) = digitAt w (x / 2 ^ (w * m * k)) t := by
    rw [digitAt_eq, digitAt_eq, hexp, pow_add, Nat.div_div_eq_div_mul]
  rw [hdigit, hsplit, digitAt_add _ _ ht, digitAt_eq (w * m)]

/-- Every digit is read back. -/
theorem digitAt_packDigits (h : ∀ k < n, digit k < 2 ^ w) (hk : k < n) :
    digitAt w (packDigits w digit n) k = digit k := by
  induction n with
  | zero => exact absurd hk (Nat.not_lt_zero k)
  | succ n ih =>
    have hbelow : ∀ k < n, digit k < 2 ^ w := fun k hk => h k (Nat.lt_succ_of_lt hk)
    rw [packDigits_succ hbelow]
    rcases Nat.eq_or_lt_of_le (Nat.le_of_lt_succ hk) with rfl | hlt
    · rw [digitAt_eq, Nat.add_mul_div_right _ _ (Nat.two_pow_pos _), Nat.div_eq_of_lt (packDigits_lt hbelow),
        Nat.zero_add, Nat.mod_eq_of_lt (h k (Nat.lt_succ_self k))]
    · rw [digitAt_add _ _ hlt]
      exact ih hbelow hlt

/-- Every word is the packing of its digits. -/
theorem packDigits_digitAt (w n x : ℕ) : packDigits w (digitAt w x) n = x % 2 ^ (w * n) := by
  induction n with
  | zero => rw [Nat.mul_zero, pow_zero, Nat.mod_one]; rfl
  | succ n ih =>
    rw [packDigits_succ (fun k _ => digitAt_lt w x k), ih, Nat.mul_succ, pow_add, Nat.mod_mul, digitAt_eq,
      Nat.mul_comm]
    ring

theorem packDigits_congr {digit' : ℕ → ℕ} (h : ∀ k < n, digit k = digit' k) :
    packDigits w digit n = packDigits w digit' n :=
  loop_congr 0 fun k hk acc => by rw [h k hk]

/-- Digits in two parts, one above the other. -/
theorem packDigits_add (w : ℕ) (digit : ℕ → ℕ) (m n : ℕ) :
    packDigits w digit (m + n) = packDigits w digit m ||| packDigits w (fun k => digit (m + k)) n <<< (w * m) := by
  induction n with
  | zero =>
    have hnone : packDigits w (fun k => digit (m + k)) 0 = 0 := rfl
    rw [hnone, Nat.zero_shiftLeft, Nat.or_zero, Nat.add_zero]
  | succ n ih =>
    have hstep : ∀ digit k, packDigits w digit (k + 1) = packDigits w digit k ||| digit k <<< (w * k) :=
      fun _ _ => rfl
    rw [← Nat.add_assoc, hstep, hstep, ih, Nat.shiftLeft_or_distrib, ← Nat.shiftLeft_add, Nat.or_assoc, Nat.mul_add,
      Nat.add_comm (w * m)]

/-! Bytes of two and of four digits, and masks of truth values. -/

def nibbles (lo hi : ℕ) : BitVec 8 := BitVec.ofNat 8 (lo ||| hi <<< 4)

def crumbs (a b c d : ℕ) : BitVec 8 := BitVec.ofNat 8 (a ||| b <<< 2 ||| c <<< 4 ||| d <<< 6)

def bitMask (p : ℕ → Bool) (n : ℕ) : ℕ := loop (fun k acc => if p k then acc ||| 1 <<< k else acc) 0 n

theorem toNat_nibbles {lo hi : ℕ} (hlo : lo < 16) (hhi : hi < 16) : (nibbles lo hi).toNat = lo + hi * 16 := by
  rw [nibbles, or_shiftLeft (s := 4) hlo, BitVec.toNat_ofNat, Nat.mod_eq_of_lt (by omega)]
  rfl

theorem digitAt_nibbles {lo hi : ℕ} (hlo : lo < 16) (hhi : hi < 16) (k : ℕ) (hk : k < 2) :
    digitAt 4 (nibbles lo hi).toNat k = if k = 0 then lo else hi := by
  rw [toNat_nibbles hlo hhi, digitAt_eq]
  obtain rfl | rfl : k = 0 ∨ k = 1 := by omega
  · change _ = lo
    omega
  · change _ = hi
    omega

theorem nibbles_digitAt (x : BitVec 8) : nibbles (digitAt 4 x.toNat 0) (digitAt 4 x.toNat 1) = x := by
  apply BitVec.eq_of_toNat_eq
  have hlt := x.isLt
  rw [toNat_nibbles (digitAt_lt 4 _ _) (digitAt_lt 4 _ _), digitAt_eq, digitAt_eq]
  omega

/-- A mask packs its truth values as digits of one bit. -/
theorem bitMask_congr {p q : ℕ → Bool} {n : ℕ} (h : ∀ k < n, p k = q k) : bitMask p n = bitMask q n :=
  loop_congr 0 fun k hk acc => by rw [h k hk]

theorem bitMask_eq (p : ℕ → Bool) (n : ℕ) : bitMask p n = packDigits 1 (fun k => (p k).toNat) n := by
  induction n with
  | zero => rfl
  | succ n ih =>
    have hstep : bitMask p (n + 1) = if p n then bitMask p n ||| 1 <<< n else bitMask p n := rfl
    have hpack : packDigits 1 (fun k => (p k).toNat) (n + 1) =
        packDigits 1 (fun k => (p k).toNat) n ||| (p n).toNat <<< (1 * n) := rfl
    rw [hstep, hpack, ih, Nat.one_mul]
    cases p n <;> simp

theorem bitMask_lt (p : ℕ → Bool) (n : ℕ) : bitMask p n < 2 ^ n := by
  have hlt := packDigits_lt (w := 1) (n := n) (fun k _ => Bool.toNat_lt (p k))
  rwa [← bitMask_eq, Nat.one_mul] at hlt

theorem digitAt_bitMask (p : ℕ → Bool) (hk : k < n) : digitAt 1 (bitMask p n) k = (p k).toNat := by
  rw [bitMask_eq]
  exact digitAt_packDigits (fun k _ => Bool.toNat_lt (p k)) hk

theorem testBit_bitMask (p : ℕ → Bool) {n j : ℕ} (hj : j < n) : (bitMask p n).testBit j = p j := by
  have hdigit := digitAt_bitMask p hj
  rw [digitAt_eq, Nat.one_mul, pow_one, ← Nat.toNat_testBit] at hdigit
  cases hp : p j
  · rw [hp] at hdigit
    exact Bool.toNat_eq_zero.mp hdigit
  · rw [hp] at hdigit
    exact Bool.toNat_eq_one.mp hdigit

end Qtx.PackedDigits
