import Qtx.GenID
import Mathlib.Data.Set.Function

/-!
# The fields of a handle are independent

A setter and a version bump write one field of the handle, or nothing at all. So after any
sequence of them every field holds the last value that was set for it, and the version has
advanced by the bumps.
-/
namespace Qtx.GenID
open BitFields

/-- The operations that make one handle from another. -/
inductive Modifier
  | withState (s : SlotState)
  | withQuantFormat (q : QuantFormat)
  | withAlignmentClass (a : ℕ)
  | withSubSlot (idx : ℕ)
  | withMetadata (m : ℕ)
  | bumpVersion
  deriving DecidableEq

namespace Modifier

def apply (g : GenID) : Modifier → GenID
  | withState s => g.withState s
  | withQuantFormat q => g.withQuantFormat q
  | withAlignmentClass a => g.withAlignmentClass a
  | withSubSlot idx => g.withSubSlot idx
  | withMetadata m => g.withMetadata m
  | bumpVersion => g.bumpVersion

/-- The field that a modifier addresses. -/
def target : Modifier → FieldName
  | withState _ => .state
  | withQuantFormat _ => .quant
  | withAlignmentClass _ => .alignment
  | withSubSlot _ => .subSlot
  | withMetadata _ => .metadata
  | bumpVersion => .version

/-- The state that a modifier sets, and so on for the other fields; arguments out of range set nothing. -/
def newState : Modifier → Option SlotState
  | withState s => some s
  | _ => none

def newQuantFormat : Modifier → Option QuantFormat
  | withQuantFormat q => some q
  | _ => none

def newAlignmentClass : Modifier → Option ℕ
  | withAlignmentClass a => if a ≤ kMaxAlignment then some a else none
  | _ => none

def newSubSlot : Modifier → Option ℕ
  | withSubSlot idx => if idx ≤ kMaxSubSlot then some idx else none
  | _ => none

def newMetadata : Modifier → Option ℕ
  | withMetadata m => if m ≤ kMaxMetadata then some m else none
  | _ => none

end Modifier

/-- The last of the values that a sequence sets, or the value before it. -/
def lastSet {α : Type} (value : Modifier → Option α) (start : α) (ms : List Modifier) : α :=
  (ms.filterMap value).getLast?.getD start

variable {g : GenID} {m : Modifier}

section Steps

theorem withAlignmentClass_of_lt {a : ℕ} (h : kMaxAlignment < a) : g.withAlignmentClass a = g := if_pos h

theorem withSubSlot_of_lt {idx : ℕ} (h : kMaxSubSlot < idx) : g.withSubSlot idx = g := if_pos h

theorem withMetadata_of_lt {m : ℕ} (h : kMaxMetadata < m) : g.withMetadata m = g := if_pos h

/-- A setter with a range check: the value is stored, or the handle stays. -/
theorem get_checked {f : Field 64} {value : ℕ} :
    f.get (if value > 2 ^ f.width - 1 then g else ⟨f.set g.bits value⟩ : GenID).bits =
      (if value ≤ 2 ^ f.width - 1 then some value else none).getD (f.get g.bits) := by
  split_ifs with hout hin hin
  · exact absurd hin (Nat.not_le.mpr hout)
  · rfl
  · exact Field.get_set_self _ (Nat.lt_of_le_pred (Nat.two_pow_pos _) hin)
  · exact absurd (Nat.not_lt.mp hout) hin

/-- Fields that a modifier does not address keep their value. -/
theorem get_apply_of_ne {n : FieldName} (h : n ≠ m.target) : n.field.get (m.apply g).bits = n.field.get g.bits := by
  have hset : ∀ v, n.field.get (m.target.field.set g.bits v) = n.field.get g.bits :=
    fun v => Field.get_set_of_disjoint (FieldName.disjoint h) g.bits v
  cases m with
  | withState s => exact hset s.code
  | withQuantFormat q => exact hset q.code
  | bumpVersion => exact hset _
  | withAlignmentClass a =>
    simp only [Modifier.apply, withAlignmentClass]
    split_ifs
    · rfl
    · exact hset a
  | withSubSlot idx =>
    simp only [Modifier.apply, withSubSlot]
    split_ifs
    · rfl
    · exact hset idx
  | withMetadata d =>
    simp only [Modifier.apply, withMetadata]
    split_ifs
    · rfl
    · exact hset d

theorem id_apply (g : GenID) (m : Modifier) : (m.apply g).id = g.id :=
  get_apply_of_ne (n := .id) (by cases m <;> exact nofun)

theorem state_apply (g : GenID) (m : Modifier) : (m.apply g).state = m.newState.getD g.state := by
  cases m with
  | withState s =>
    have hget : stateField.get (g.withState s).bits = s.code := Field.get_set_self _ (by cases s <;> decide)
    exact (congrArg SlotState.ofCode hget).trans s.ofCode_code
  | _ => exact congrArg SlotState.ofCode (get_apply_of_ne (n := .state) nofun)

theorem quantFormat_apply (g : GenID) (m : Modifier) :
    (m.apply g).quantFormat = m.newQuantFormat.getD g.quantFormat := by
  cases m with
  | withQuantFormat q =>
    have hget : quantField.get (g.withQuantFormat q).bits = q.code := Field.get_set_self _ (by cases q <;> decide)
    exact (congrArg QuantFormat.ofCode hget).trans q.ofCode_code
  | _ => exact congrArg QuantFormat.ofCode (get_apply_of_ne (n := .quant) nofun)

theorem alignmentClass_apply (g : GenID) (m : Modifier) :
    (m.apply g).alignmentClass = m.newAlignmentClass.getD g.alignmentClass := by
  cases m with
  | withAlignmentClass a => exact get_checked
  | _ => exact get_apply_of_ne (n := .alignment) nofun

theorem subSlotIndex_apply (g : GenID) (m : Modifier) :
    (m.apply g).subSlotIndex = m.newSubSlot.getD g.subSlotIndex := by
  cases m with
  | withSubSlot idx => exact get_checked
  | _ => exact get_apply_of_ne (n := .subSlot) nofun

theorem metadata_apply (g : GenID) (m : Modifier) : (m.apply g).metadata = m.newMetadata.getD g.metadata := by
  cases m with
  | withMetadata d => exact get_checked
  | _ => exact get_apply_of_ne (n := .metadata) nofun

theorem version_bumpVersion (g : GenID) : g.bumpVersion.version = (g.version + 1) % 2 ^ 16 := by
  have hmask : (g.version + 1) &&& kMaxVersion = (g.version + 1) % 2 ^ 16 := Nat.and_two_pow_sub_one_eq_mod _ 16
  rw [bumpVersion, hmask]
  exact Field.get_set_self _ (Nat.mod_lt _ (Nat.two_pow_pos 16))

theorem version_apply (g : GenID) (m : Modifier) :
    (m.apply g).version = (g.version + if m = .bumpVersion then 1 else 0) % 2 ^ 16 := by
  have hversion : g.version % 2 ^ 16 = g.version := Nat.mod_eq_of_lt (Nat.lt_succ_of_le g.version_le)
  cases m with
  | bumpVersion => exact version_bumpVersion g
  | _ =>
    rw [if_neg nofun, Nat.add_zero, hversion]
    exact get_apply_of_ne (n := .version) nofun

end Steps

section Sequences

/-- A reading that every modifier either sets or leaves is the last value set. -/
theorem read_foldl {α : Type} {read : GenID → α} {value : Modifier → Option α}
    (h : ∀ g m, read (m.apply g) = (value m).getD (read g)) (g : GenID) (ms : List Modifier) :
    read (ms.foldl Modifier.apply g) = lastSet value (read g) ms := by
  induction ms generalizing g with
  | nil => rfl
  | cons m ms ih =>
    rw [List.foldl_cons, ih, h, lastSet, lastSet]
    cases hm : value m with
    | none => rw [List.filterMap_cons_none hm, Option.getD_none]
    | some v => rw [List.filterMap_cons_some hm, List.getLast?_cons, Option.getD_some, Option.getD_some]

theorem id_foldl (g : GenID) (ms : List Modifier) : (ms.foldl Modifier.apply g).id = g.id := by
  induction ms generalizing g with
  | nil => rfl
  | cons m ms ih => rw [List.foldl_cons, ih, id_apply]

theorem version_foldl (g : GenID) (ms : List Modifier) :
    (ms.foldl Modifier.apply g).version = (g.version + ms.count .bumpVersion) % 2 ^ 16 := by
  induction ms generalizing g with
  | nil => exact (Nat.mod_eq_of_lt (Nat.lt_succ_of_le g.version_le)).symm
  | cons m ms ih =>
    rw [List.foldl_cons, ih, version_apply, List.count_cons, Nat.mod_add_mod, Nat.add_assoc,
      Nat.add_comm (List.count _ ms)]
    simp only [beq_iff_eq]

end Sequences

section Arguments

/-- The arguments of `make`. -/
structure Arguments where
  id : ℕ
  version : ℕ
  alignmentClass : ℕ
  quant : QuantFormat
  state : SlotState

namespace Arguments

def make (a : Arguments) : GenID := GenID.make a.id a.version a.alignmentClass a.quant a.state

def InRange (a : Arguments) : Prop := a.id ≤ kMaxId ∧ a.version ≤ kMaxVersion ∧ a.alignmentClass ≤ kMaxAlignment

instance (a : Arguments) : Decidable a.InRange := inferInstanceAs (Decidable (_ ∧ _ ∧ _))

end Arguments

/-- What the accessors of the first five fields read. -/
def arguments (g : GenID) : Arguments := ⟨g.id, g.version, g.alignmentClass, g.quantFormat, g.state⟩

variable {a : Arguments}

theorem arguments_make (h : a.InRange) : a.make.arguments = a := by
  obtain ⟨hid, hv, ha⟩ := h
  have hquant : a.make.quantFormat = a.quant :=
    (congrArg QuantFormat.ofCode (get_make hid hv ha .quant)).trans a.quant.ofCode_code
  rw [arguments, hquant]
  congr 1
  · exact id_make hid hv ha
  · exact version_make hid hv ha
  · exact get_make hid hv ha .alignment
  · exact state_make hid hv ha

theorem make_injOn : Set.InjOn Arguments.make {a | a.InRange} := by
  have hleft : Set.LeftInvOn arguments Arguments.make {a | a.InRange} := fun _ h => arguments_make h
  exact hleft.injOn

end Arguments

/-- After any setters and bumps every accessor reads the last value in range that was set for its field, an
argument out of range leaves the handle as it was, and `make` is read back field by field. -/
theorem fields_independent :
    (∀ (raw : BitVec 64) (ms : List Modifier),
      let g := fromRaw raw
      let g' := ms.foldl Modifier.apply g
      g'.id = g.id ∧ g'.version = (g.version + ms.count .bumpVersion) % 2 ^ 16 ∧
      g'.alignmentClass = lastSet Modifier.newAlignmentClass g.alignmentClass ms ∧
      g'.quantFormat = lastSet Modifier.newQuantFormat g.quantFormat ms ∧
      g'.state = lastSet Modifier.newState g.state ms ∧
      g'.subSlotIndex = lastSet Modifier.newSubSlot g.subSlotIndex ms ∧
      g'.metadata = lastSet Modifier.newMetadata g.metadata ms) ∧
    (∀ (g : GenID) (v : ℕ), (kMaxAlignment < v → g.withAlignmentClass v = g) ∧
      (kMaxSubSlot < v → g.withSubSlot v = g) ∧ (kMaxMetadata < v → g.withMetadata v = g)) ∧
    (∀ a : Arguments, a.InRange → a.make.arguments = a ∧ a.make.subSlotIndex = 0 ∧ a.make.metadata = 0 ∧
      (a.state ≠ .kFree → a.make.isNull = false)) ∧
    Set.InjOn Arguments.make {a | a.InRange} := by
  refine ⟨fun raw ms => ?_, fun g v => ?_, fun a h => ?_, make_injOn⟩
  · refine ⟨id_foldl _ ms, version_foldl _ ms, ?_, ?_, ?_, ?_, ?_⟩
    · exact read_foldl alignmentClass_apply _ ms
    · exact read_foldl quantFormat_apply _ ms
    · exact read_foldl state_apply _ ms
    · exact read_foldl subSlotIndex_apply _ ms
    · exact read_foldl metadata_apply _ ms
  · exact ⟨withAlignmentClass_of_lt, withSubSlot_of_lt, withMetadata_of_lt⟩
  · refine ⟨arguments_make h, get_make h.1 h.2.1 h.2.2 .subSlot, get_make h.1 h.2.1 h.2.2 .metadata,
      fun hstate => ?_⟩
    apply isNull_of_state_ne
    rwa [Arguments.make, state_make h.1 h.2.1 h.2.2]

/-- All bits set: the version wraps, the second sub-slot is refused, and no other field changes. -/
theorem fields_independent_ones :
    let g := [.withSubSlot 3, .bumpVersion, .withSubSlot 32, .withState .kDormant].foldl Modifier.apply
      (fromRaw (BitVec.allOnes 64))
    (g.subSlotIndex = 3 ∧ g.version = 0 ∧ g.state = .kDormant ∧ g.metadata = 127) ∧
    (Arguments.make ⟨5, 1, 7, .kINT8, .kActive⟩).isNull = false := by
  obtain ⟨hrun, -, hmake, -⟩ := fields_independent
  obtain ⟨-, hversion, -, -, hstate, hsub, hmeta⟩ := hrun (BitVec.allOnes 64)
    [.withSubSlot 3, .bumpVersion, .withSubSlot 32, .withState .kDormant]
  refine ⟨⟨hsub.trans (by decide), hversion.trans (by decide), hstate.trans (by decide),
    hmeta.trans (by decide)⟩, ?_⟩
  exact (hmake ⟨5, 1, 7, .kINT8, .kActive⟩ (by decide)).2.2.2 (by decide)

end Qtx.GenID
