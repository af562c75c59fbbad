import Qtx.BitFields

/-!
# Generational slot handles

A handle is a 64-bit word of seven fields. Arguments of the source type `u32` are
natural numbers here; every setter that takes one checks its range first.
-/
namespace Qtx
open BitFields

inductive QuantFormat
  | kFP32 | kBF16 | kFP16 | kFP8_E4M3 | kINT8 | kINT4 | kFP8_E5M2 | kReserved
  deriving DecidableEq

def QuantFormat.code : QuantFormat → ℕ
  | .kFP32 => 0
  | .kBF16 => 1
  | .kFP16 => 2
  | .kFP8_E4M3 => 3
  | .kINT8 => 4
  | .kINT4 => 5
  | .kFP8_E5M2 => 6
  | .kReserved => 7

def QuantFormat.ofCode : ℕ → QuantFormat
  | 0 => .kFP32
  | 1 => .kBF16
  | 2 => .kFP16
  | 3 => .kFP8_E4M3
  | 4 => .kINT8
  | 5 => .kINT4
  | 6 => .kFP8_E5M2
  | _ => .kReserved

inductive SlotState
  | kFree | kActive | kDormant | kQuantized
  deriving DecidableEq

def SlotState.code : SlotState → ℕ
  | .kFree => 0
  | .kActive => 1
  | .kDormant => 2
  | .kQuantized => 3

def SlotState.ofCode : ℕ → SlotState
  | 0 => .kFree
  | 1 => .kActive
  | 2 => .kDormant
  | _ => .kQuantized

theorem SlotState.ofCode_code (s : SlotState) : ofCode s.code = s := by cases s <;> rfl

theorem QuantFormat.ofCode_code (q : QuantFormat) : ofCode q.code = q := by cases q <;> rfl

structure GenID where
  bits : BitVec 64
  deriving DecidableEq

namespace GenID

def idField : Field 64 := ⟨0, 24, by decide⟩
def versionField : Field 64 := ⟨24, 16, by decide⟩
def alignmentField : Field 64 := ⟨40, 7, by decide⟩
def quantField : Field 64 := ⟨47, 3, by decide⟩
def stateField : Field 64 := ⟨50, 2, by decide⟩
def subSlotField : Field 64 := ⟨52, 5, by decide⟩
def metadataField : Field 64 := ⟨57, 7, by decide⟩

inductive FieldName
  | id | version | alignment | quant | state | subSlot | metadata
  deriving DecidableEq

def FieldName.field : FieldName → Field 64
  | id => idField
  | version => versionField
  | alignment => alignmentField
  | quant => quantField
  | state => stateField
  | subSlot => subSlotField
  | metadata => metadataField

theorem FieldName.disjoint {m n : FieldName} (h : m ≠ n) : m.field.Disjoint n.field := by
  cases m <;> cases n <;> first | exact absurd rfl h | decide

theorem FieldName.get_put {n : FieldName} {value : ℕ} (h : value < 2 ^ n.field.width) (m : FieldName) :
    m.field.get (n.field.put value) = if m = n then value else 0 := by
  split_ifs with hmn
  · rw [hmn, Field.get_put h]
  · exact Field.get_put_of_disjoint (disjoint hmn) value

def kMaxId : ℕ := 2 ^ idField.width - 1
def kMaxVersion : ℕ := 2 ^ versionField.width - 1
def kMaxAlignment : ℕ := 2 ^ alignmentField.width - 1
def kMaxSubSlot : ℕ := 2 ^ subSlotField.width - 1
def kMaxMetadata : ℕ := 2 ^ metadataField.width - 1

def null : GenID := ⟨0#64⟩

def fromRaw (raw : BitVec 64) : GenID := ⟨raw⟩

def make (id version alignmentClass : ℕ) (quant : QuantFormat) (state : SlotState) : GenID :=
  if id > kMaxId || version > kMaxVersion || alignmentClass > kMaxAlignment then null
  else ⟨idField.put id ||| versionField.put version ||| alignmentField.put alignmentClass |||
    quantField.put quant.code ||| stateField.put state.code⟩

variable (g : GenID)

def id : ℕ := idField.get g.bits
def version : ℕ := versionField.get g.bits
def alignmentClass : ℕ := alignmentField.get g.bits
def quantFormat : QuantFormat := .ofCode (quantField.get g.bits)
def state : SlotState := .ofCode (stateField.get g.bits)
def subSlotIndex : ℕ := subSlotField.get g.bits
def metadata : ℕ := metadataField.get g.bits
def raw : BitVec 64 := g.bits

def withState (s : SlotState) : GenID := ⟨stateField.set g.bits s.code⟩

def withQuantFormat (q : QuantFormat) : GenID := ⟨quantField.set g.bits q.code⟩

def withAlignmentClass (a : ℕ) : GenID :=
  if a > kMaxAlignment then g else ⟨alignmentField.set g.bits a⟩

def withSubSlot (idx : ℕ) : GenID := if idx > kMaxSubSlot then g else ⟨subSlotField.set g.bits idx⟩

def withMetadata (m : ℕ) : GenID := if m > kMaxMetadata then g else ⟨metadataField.set g.bits m⟩

def bumpVersion : GenID := ⟨versionField.set g.bits ((g.version + 1) &&& kMaxVersion)⟩

def isNull : Bool := g.bits = 0#64

variable {g}

theorem isNull_iff : g.isNull = true ↔ g = null := by
  rw [isNull, decide_eq_true_eq]
  constructor
  · intro h
    exact congrArg GenID.mk h
  · rintro rfl
    rfl

@[simp] theorem isNull_null : null.isNull = true := isNull_iff.mpr rfl

/-- A handle in a state other than `kFree` is never the null handle. -/
theorem isNull_of_state_ne (h : g.state ≠ .kFree) : g.isNull = false := by
  rw [Bool.eq_false_iff]
  intro hnull
  rw [isNull_iff.mp hnull] at h
  exact h (by decide)

theorem version_le (g : GenID) : g.version ≤ kMaxVersion := Nat.le_pred_of_lt (Field.get_lt _ _)

section Make

variable {id version alignmentClass : ℕ} {quant : QuantFormat} {state : SlotState}

theorem make_of_le (hid : id ≤ kMaxId) (hv : version ≤ kMaxVersion) (ha : alignmentClass ≤ kMaxAlignment) :
    make id version alignmentClass quant state =
      ⟨idField.put id ||| versionField.put version ||| alignmentField.put alignmentClass |||
        quantField.put quant.code ||| stateField.put state.code⟩ := by
  rw [make, if_neg]
  simp only [Bool.or_eq_true, decide_eq_true_eq, not_or, Nat.not_lt]
  exact ⟨⟨hid, hv⟩, ha⟩

/-- Every field of a new handle, in order. -/
theorem get_make (hid : id ≤ kMaxId) (hv : version ≤ kMaxVersion) (ha : alignmentClass ≤ kMaxAlignment)
    (n : FieldName) :
    n.field.get (make id version alignmentClass quant state).bits = match n with
      | .id => id
      | .version => version
      | .alignment => alignmentClass
      | .quant => quant.code
      | .state => state.code
      | .subSlot | .metadata => 0 := by
  have hidLt : id < 2 ^ (FieldName.field .id).width := Nat.lt_of_le_pred (Nat.two_pow_pos _) hid
  have hversionLt : version < 2 ^ (FieldName.field .version).width := Nat.lt_of_le_pred (Nat.two_pow_pos _) hv
  have halignmentLt : alignmentClass < 2 ^ (FieldName.field .alignment).width :=
    Nat.lt_of_le_pred (Nat.two_pow_pos _) ha
  have hquantLt : quant.code < 2 ^ (FieldName.field .quant).width := by cases quant <;> decide
  have hstateLt : state.code < 2 ^ (FieldName.field .state).width := by cases state <;> decide
  rw [make_of_le hid hv ha]
  change n.field.get (FieldName.id.field.put id ||| FieldName.version.field.put version |||
    FieldName.alignment.field.put alignmentClass ||| FieldName.quant.field.put quant.code |||
    FieldName.state.field.put state.code) = _
  simp only [Field.get_or, FieldName.get_put hidLt, FieldName.get_put hversionLt, FieldName.get_put halignmentLt,
    FieldName.get_put hquantLt, FieldName.get_put hstateLt]
  cases n <;> simp

theorem id_make (hid : id ≤ kMaxId) (hv : version ≤ kMaxVersion) (ha : alignmentClass ≤ kMaxAlignment) :
    (make id version alignmentClass quant state).id = id := get_make hid hv ha .id

theorem version_make (hid : id ≤ kMaxId) (hv : version ≤ kMaxVersion) (ha : alignmentClass ≤ kMaxAlignment) :
    (make id version alignmentClass quant state).version = version := get_make hid hv ha .version

theorem state_make (hid : id ≤ kMaxId) (hv : version ≤ kMaxVersion) (ha : alignmentClass ≤ kMaxAlignment) :
    (make id version alignmentClass quant state).state = state :=
  (congrArg SlotState.ofCode (get_make hid hv ha .state)).trans state.ofCode_code

end Make

section SubSlots

variable {idx : ℕ}

theorem withSubSlot_of_le (h : idx ≤ kMaxSubSlot) : g.withSubSlot idx = ⟨subSlotField.set g.bits idx⟩ := by
  rw [withSubSlot, if_neg (Nat.not_lt.mpr h)]

theorem subSlotIndex_withSubSlot (h : idx ≤ kMaxSubSlot) : (g.withSubSlot idx).subSlotIndex = idx := by
  rw [withSubSlot_of_le h, subSlotIndex]
  exact Field.get_set_self _ (Nat.lt_of_le_pred (Nat.two_pow_pos _) h)

@[simp] theorem id_withSubSlot (g : GenID) (idx : ℕ) : (g.withSubSlot idx).id = g.id := by
  rw [withSubSlot]
  split_ifs with h
  · rfl
  · exact Field.get_set_of_disjoint (by decide) _ _

@[simp] theorem version_withSubSlot (g : GenID) (idx : ℕ) : (g.withSubSlot idx).version = g.version := by
  rw [withSubSlot]
  split_ifs with h
  · rfl
  · exact Field.get_set_of_disjoint (by decide) _ _

@[simp] theorem state_withSubSlot (g : GenID) (idx : ℕ) : (g.withSubSlot idx).state = g.state := by
  rw [withSubSlot]
  split_ifs with h
  · rfl
  · exact congrArg SlotState.ofCode (Field.get_set_of_disjoint (by decide) _ _)

end SubSlots

end GenID

end Qtx
