import Mathlib.Data.BitVec
import Mathlib.Tactic.Common

/-!
# Safety primitives of the ggml boundary

Tagged headers, install tokens, and the checked arithmetic of `core/contracts.hpp`. Sizes
and addresses are natural numbers; the source's words are the ones below `2 ^ 64`.
-/
namespace Qtx

def kBufferContextMagic : BitVec 64 := 0x4C4954484F530001#64
def kArenaAccessMagic : BitVec 64 := 0x4C4954484F530002#64
def kBuftStorageMagic : BitVec 64 := 0x4C4954484F530003#64
def kFreedMagic : BitVec 64 := 0xDEADBEEFDEADBEEF#64

structure TaggedHeader where
  magic : BitVec 64
  generation : BitVec 32
  installToken : BitVec 64
  deriving DecidableEq

namespace TaggedHeader

def new (magic installToken : BitVec 64) : TaggedHeader := ⟨magic, 0#32, installToken⟩

def markFreed (hdr : TaggedHeader) : TaggedHeader := ⟨kFreedMagic, hdr.generation + 1#32, 0#64⟩

/-- `checked_cast` on a pointer to an existing object; where this is false it ends in a
boundary violation and does not return. -/
def checkedCast (hdr : TaggedHeader) (expectedMagic : BitVec 64) : Bool := hdr.magic = expectedMagic

@[simp] theorem checkedCast_new (magic installToken : BitVec 64) :
    (new magic installToken).checkedCast magic = true :=
  decide_eq_true rfl

@[simp] theorem checkedCast_markFreed (hdr : TaggedHeader) :
    hdr.markFreed.checkedCast kBufferContextMagic = false := by
  rfl

end TaggedHeader

/-- The token handed out after `n` others. -/
def nextInstallToken (n : ℕ) : BitVec 64 := BitVec.ofNat 64 (0xA110C800000001 + n) ||| 0x8000000000000000#64

theorem nextInstallToken_ne_zero (n : ℕ) : nextInstallToken n ≠ 0#64 := by
  intro h
  have hbit := congrArg (·.getLsbD 63) h
  simp [nextInstallToken] at hbit

/-- Tokens repeat only after the counter has gone through all values of its low 63 bits. -/
theorem nextInstallToken_inj {m n : ℕ} (hm : m < 2 ^ 63) (hn : n < 2 ^ 63)
    (h : nextInstallToken m = nextInstallToken n) : m = n := by
  have hlow : ∀ k, (nextInstallToken k).setWidth 63 = BitVec.ofNat 63 (0xA110C800000001 + k) := by
    intro k
    have htop : (0x8000000000000000#64).setWidth 63 = 0#63 := rfl
    rw [nextInstallToken, BitVec.setWidth_or, htop, BitVec.or_zero, BitVec.setWidth_ofNat_of_le (by decide)]
  have hmod : (0xA110C800000001 + m) % 2 ^ 63 = (0xA110C800000001 + n) % 2 ^ 63 := by
    have heq := congrArg (BitVec.setWidth 63) h
    rw [hlow, hlow] at heq
    have hnat := congrArg BitVec.toNat heq
    rwa [BitVec.toNat_ofNat, BitVec.toNat_ofNat] at hnat
  exact Nat.ModEq.eq_of_lt_of_lt (Nat.ModEq.add_left_cancel' _ hmod) hm hn

/-- The sum, unless it wraps. -/
def addOverflow (a b : ℕ) : Option ℕ := if a + b < 2 ^ 64 then some (a + b) else none

def rangeWithin (bufferSize offset length : ℕ) : Bool :=
  if offset > bufferSize then false
  else match addOverflow offset length with
    | none => false
    | some stop => stop ≤ bufferSize

theorem addOverflow_eq_some {a b c : ℕ} : addOverflow a b = some c ↔ a + b < 2 ^ 64 ∧ c = a + b := by
  rw [addOverflow, Option.ite_none_right_eq_some, Option.some.injEq, eq_comm (a := c)]

theorem rangeWithin_le {bufferSize offset length : ℕ} (h : rangeWithin bufferSize offset length = true) :
    offset + length ≤ bufferSize := by
  unfold rangeWithin at h
  split_ifs at h
  cases ha : addOverflow offset length with
  | none => simp [ha] at h
  | some stop =>
    obtain ⟨-, rfl⟩ := addOverflow_eq_some.mp ha
    simpa [ha] using h

/-- For a size that is a word, no sum that wraps is accepted. -/
theorem rangeWithin_iff {bufferSize offset length : ℕ} (hword : bufferSize < 2 ^ 64) :
    rangeWithin bufferSize offset length = true ↔ offset + length ≤ bufferSize := by
  refine ⟨rangeWithin_le, fun hle => ?_⟩
  have hadd : addOverflow offset length = some (offset + length) := addOverflow_eq_some.mpr ⟨by omega, rfl⟩
  rw [rangeWithin, if_neg (by omega), hadd]
  exact decide_eq_true hle

end Qtx
