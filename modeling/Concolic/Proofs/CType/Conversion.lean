import Concolic.CType
import Concolic.Operator.Apply
import Concolic.Proofs.Word.Bytes

/-!
# Conversion to a C type

A word is canonical for a width and a sign when it is the extension of its own low bits.  Converted
values are canonical, conversion is idempotent, and except at `bool` it reads and keeps the low
bits alone.
-/

namespace Concolic

/-- Sign or zero extension of the low `bits` bits. -/
def extend (signed : Bool) (bits : Nat) (value : Value) : Value :=
  if signed then signExtend bits value else zeroExtend bits value

theorem setWidth_extend (signed : Bool) {bits : Nat} (value : Value) {low : Nat}
    (fits : low ≤ bits) : (extend signed bits value).setWidth low = value.setWidth low := by
  unfold extend
  split
  · exact setWidth_signExtend value fits
  · exact setWidth_zeroExtend value fits

theorem extend_congr (signed : Bool) {bits : Nat} {a b : Value} (positive : 0 < bits)
    (low : a.setWidth bits = b.setWidth bits) : extend signed bits a = extend signed bits b := by
  unfold extend
  split
  · exact signExtend_congr positive low
  · exact zeroExtend_congr low

theorem extend_extend (signed : Bool) {bits : Nat} (value : Value) (positive : 0 < bits) :
    extend signed bits (extend signed bits value) = extend signed bits value :=
  extend_congr signed positive (setWidth_extend signed value (Nat.le_refl bits))

/-- A canonical value at a wider width is the extension of its own bits. -/
theorem setWidth_of_extend_eq {signed : Bool} {bits : Nat} {value : Value}
    (canonical : extend signed bits value = value) (positive : 0 < bits) {wide : Nat}
    (wider : bits ≤ wide) (narrow : wide ≤ 64) :
    value.setWidth wide =
      if signed then (value.setWidth bits).signExtend wide
      else (value.setWidth bits).setWidth wide := by
  rw [← canonical]
  cases signed with
  | false =>
    simp only [extend, Bool.false_eq_true, if_false, zeroExtend_eq_setWidth]
    apply BitVec.eq_of_getLsbD_eq
    intro i below
    simp only [BitVec.getLsbD_setWidth]
    by_cases inside : i < bits
    · simp [inside, show i < 64 by omega]
    · simp [inside]
  | true =>
    simp only [extend, if_true, signExtend_eq_signExtend value positive (by omega)]
    have low : ((value.setWidth bits).signExtend 64).setWidth bits = value.setWidth bits := by
      rw [← signExtend_eq_signExtend value positive (by omega)]
      exact setWidth_signExtend value (Nat.le_refl bits)
    rw [low]
    apply BitVec.eq_of_getLsbD_eq
    intro i below
    rw [BitVec.getLsbD_setWidth, BitVec.getLsbD_signExtend, BitVec.getLsbD_signExtend]
    simp only [below, show i < 64 by omega, decide_true, Bool.true_and]

/-- A canonical value is zero as soon as its low bits are. -/
theorem setWidth_eq_zero_iff_of_canonical {signed : Bool} {bits : Nat} {value : Value}
    (canonical : extend signed bits value = value) (positive : 0 < bits) :
    value.setWidth bits = BitVec.ofNat bits 0 ↔ value = 0 := by
  constructor
  · intro zero
    have low : value.setWidth bits = (0 : Value).setWidth bits := by
      rw [zero]
      simp
    rw [← canonical, extend_congr signed positive low]
    cases signed
    · simp [extend, zeroExtend_eq_setWidth]
    · have nothing : (BitVec.ofNat bits 0).signExtend 64 = 0 := by
        apply BitVec.eq_of_getLsbD_eq
        intro i below
        simp [BitVec.getLsbD_signExtend]
      simp [extend, signExtend, nothing]
  · rintro rfl
    simp

namespace CType

theorem isStruct_eq_false_iff (ty : CType) : ty.isStruct = false ↔ ty ≠ .struct := by
  cases ty <;> simp [isStruct]

theorem size_pos {ty : CType} (scalar : ty ≠ .struct) : 0 < ty.size := by
  cases ty <;> simp_all [size]

theorem size_le_eight (ty : CType) : ty.size ≤ 8 := by
  cases ty <;> simp [size]

theorem bits_pos {ty : CType} (scalar : ty ≠ .struct) : 0 < ty.bits := by
  have := size_pos scalar
  unfold bits
  omega

theorem bits_le (ty : CType) : ty.bits ≤ 64 := by
  have := size_le_eight ty
  unfold bits
  omega

theorem normalize_eq_extend {ty : CType} (notBool : ty ≠ .bool) (scalar : ty ≠ .struct)
    (value : Value) : ty.normalize value = extend ty.isSigned ty.bits value := by
  cases ty <;> first | contradiction | rfl

theorem normalize_bool (value : Value) : bool.normalize value = if value = 0 then 0 else 1 :=
  rfl

theorem normalize_zero (ty : CType) : ty.normalize 0 = 0 := by
  cases ty <;> decide

theorem normalize_normalize (ty : CType) (value : Value) :
    ty.normalize (ty.normalize value) = ty.normalize value := by
  by_cases aggregate : ty = .struct
  · subst aggregate
    rfl
  by_cases truth : ty = .bool
  · subst truth
    simp only [normalize_bool]
    by_cases zero : value = 0 <;> simp [zero]
  · rw [normalize_eq_extend truth aggregate, normalize_eq_extend truth aggregate,
      extend_extend _ _ (bits_pos aggregate)]

theorem setWidth_normalize {ty : CType} (notBool : ty ≠ .bool) (value : Value) :
    (ty.normalize value).setWidth ty.bits = value.setWidth ty.bits := by
  by_cases aggregate : ty = .struct
  · subst aggregate
    rfl
  · rw [normalize_eq_extend notBool aggregate]
    exact setWidth_extend _ _ (Nat.le_refl _)

theorem normalize_congr {ty : CType} (notBool : ty ≠ .bool) (scalar : ty ≠ .struct) {a b : Value}
    (low : a.setWidth ty.bits = b.setWidth ty.bits) : ty.normalize a = ty.normalize b := by
  rw [normalize_eq_extend notBool scalar, normalize_eq_extend notBool scalar]
  exact extend_congr _ (bits_pos scalar) low

/-- Converted values are canonical. -/
theorem extend_of_normalize_eq {ty : CType} (scalar : ty ≠ .struct) {value : Value}
    (normal : ty.normalize value = value) : extend ty.isSigned ty.bits value = value := by
  by_cases truth : ty = .bool
  · subst truth
    rw [← normal, normalize_bool]
    split <;> decide
  · rw [← normalize_eq_extend truth scalar, normal]

/-- Except at `bool` conversion reads the bytes of the type alone. -/
theorem normalize_byteRange {ty : CType} (notBool : ty ≠ .bool) (scalar : ty ≠ .struct)
    (value : Value) : ty.normalize (byteRange value 0 ty.size) = ty.normalize value := by
  rw [byteRange_zero]
  exact normalize_congr notBool scalar (setWidth_zeroExtend value (Nat.le_refl ty.bits))

/-- A converted value is the conversion of its own bytes. -/
theorem normalize_byteRange_self {ty : CType} (scalar : ty ≠ .struct) {value : Value}
    (normal : ty.normalize value = value) : ty.normalize (byteRange value 0 ty.size) = value := by
  by_cases truth : ty = .bool
  · subst truth
    rw [normalize_bool] at normal
    split at normal <;> (rw [← normal]; decide)
  · rw [normalize_byteRange truth scalar, normal]

theorem ofSize?_isUnsigned {bytes : Nat} {ty : CType}
    (found : ofSize? bytes false = some ty) : ty ≠ .bool ∧ ty ≠ .struct := by
  unfold ofSize? at found
  split at found <;> simp_all <;> subst found <;> decide

/-- Words of eight bytes are converted to themselves. -/
theorem normalize_of_size_eq_eight {ty : CType} (wide : ty.size = 8) (value : Value) :
    ty.normalize value = value := by
  have full : ty.bits = 64 := by
    unfold bits
    omega
  rw [normalize_eq_extend (by rintro rfl; contradiction) (by rintro rfl; contradiction), full]
  simp [extend, signExtend, zeroExtend]

/-- A truth value as a number is its own conversion to every type. -/
theorem normalize_flag (ty : CType) (truth : Bool) : ty.normalize (flag truth) = flag truth := by
  cases ty <;> cases truth <;> decide

end CType

theorem flag_ne_zero (truth : Bool) : (flag truth != 0) = truth := by
  cases truth <;> rfl

theorem TypedValue.normalize_of (ty : CType) (value : Value) :
    (TypedValue.of ty value).ty.normalize (TypedValue.of ty value).value =
      (TypedValue.of ty value).value :=
  CType.normalize_normalize ty value

theorem TypedValue.bytes_of {ty : CType} (scalar : ty ≠ .struct) (value : Value) :
    (TypedValue.of ty value).bytes = ty.size := by
  simp [TypedValue.bytes, TypedValue.of, (CType.isStruct_eq_false_iff ty).mpr scalar]

end Concolic
