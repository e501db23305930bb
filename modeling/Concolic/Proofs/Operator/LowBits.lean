import Concolic.Proofs.CType.Conversion
import Concolic.Proofs.Smt.Meaning
import Concolic.Smt.Encode

/-!
# Operators as bit-vector arithmetic

An operator at a type of `n` bits computes the bit-vector operator of the same name on the low `n`
bits of its operands, whatever the higher bits are.  Comparisons compare the low bits.
-/

namespace Concolic

open Smt (bitOp)

variable {width : Nat}

/-! ## Quotients, remainders and shifts of extended words -/

theorem setWidth_udiv_zeroExtend (lhs rhs : Value) :
    (zeroExtend width lhs / zeroExtend width rhs).setWidth width =
      lhs.setWidth width / rhs.setWidth width := by
  apply BitVec.eq_of_toNat_eq
  rw [BitVec.toNat_setWidth, BitVec.toNat_udiv, BitVec.toNat_udiv, toNat_zeroExtend_eq_toNat,
    toNat_zeroExtend_eq_toNat]
  exact Nat.mod_eq_of_lt (Nat.lt_of_le_of_lt (Nat.div_le_self _ _) (lhs.setWidth width).isLt)

theorem setWidth_umod_zeroExtend (lhs rhs : Value) :
    (zeroExtend width lhs % zeroExtend width rhs).setWidth width =
      lhs.setWidth width % rhs.setWidth width := by
  apply BitVec.eq_of_toNat_eq
  rw [BitVec.toNat_setWidth, BitVec.toNat_umod, BitVec.toNat_umod, toNat_zeroExtend_eq_toNat,
    toNat_zeroExtend_eq_toNat]
  exact Nat.mod_eq_of_lt (Nat.lt_of_le_of_lt (Nat.mod_le _ _) (lhs.setWidth width).isLt)

theorem toInt_setWidth_eq_bmod (value : Value) (narrow : width ≤ 64) :
    (value.setWidth width).toInt = value.toInt.bmod (2 ^ width) := by
  rw [BitVec.toInt_setWidth, BitVec.toInt_eq_toNat_bmod,
    Int.bmod_bmod_of_dvd (Nat.pow_dvd_pow 2 narrow)]

theorem setWidth_sdiv_signExtend (lhs rhs : Value) (positive : 0 < width) (narrow : width ≤ 64) :
    ((signExtend width lhs).sdiv (signExtend width rhs)).setWidth width =
      (lhs.setWidth width).sdiv (rhs.setWidth width) := by
  apply BitVec.eq_of_toInt_eq
  rw [toInt_setWidth_eq_bmod _ narrow, BitVec.toInt_sdiv, BitVec.toInt_sdiv,
    toInt_signExtend_eq_toInt lhs positive narrow, toInt_signExtend_eq_toInt rhs positive narrow,
    Int.bmod_bmod_of_dvd (Nat.pow_dvd_pow 2 narrow)]

theorem setWidth_srem_signExtend (lhs rhs : Value) (positive : 0 < width) (narrow : width ≤ 64) :
    ((signExtend width lhs).srem (signExtend width rhs)).setWidth width =
      (lhs.setWidth width).srem (rhs.setWidth width) := by
  apply BitVec.eq_of_toInt_eq
  rw [toInt_setWidth_eq_bmod _ narrow, BitVec.toInt_srem, toInt_signExtend_eq_toInt lhs positive
    narrow, toInt_signExtend_eq_toInt rhs positive narrow, ← BitVec.toInt_srem,
    BitVec.toInt_bmod_cancel]

theorem zeroExtend_eq_zero_iff (value : Value) :
    zeroExtend width value = 0#64 ↔ value.setWidth width = BitVec.ofNat width 0 := by
  rw [← BitVec.toNat_inj, ← BitVec.toNat_inj, toNat_zeroExtend_eq_toNat]
  simp

theorem signExtend_eq_zero_iff (value : Value) (positive : 0 < width) (narrow : width ≤ 64) :
    signExtend width value = 0#64 ↔ value.setWidth width = BitVec.ofNat width 0 := by
  rw [← BitVec.toInt_inj, ← BitVec.toInt_inj, toInt_signExtend_eq_toInt value positive narrow]
  simp

theorem msb_signExtend_eq (value : Value) (positive : 0 < width) (narrow : width ≤ 64) :
    (signExtend width value).msb = (value.setWidth width).msb := by
  rw [BitVec.msb_eq_toInt, BitVec.msb_eq_toInt, toInt_signExtend_eq_toInt value positive narrow]

theorem setWidth_shiftLeft_zeroExtend (value : Value) (amount : Nat) (narrow : width ≤ 64) :
    (zeroExtend width value <<< amount).setWidth width = value.setWidth width <<< amount := by
  rw [BitVec.setWidth_shiftLeft_of_le narrow, setWidth_zeroExtend value (Nat.le_refl width)]

theorem setWidth_ushiftRight_zeroExtend (value : Value) (amount : Nat) :
    (zeroExtend width value >>> amount).setWidth width = value.setWidth width >>> amount := by
  apply BitVec.eq_of_getLsbD_eq
  intro i below
  simp [getLsbD_zeroExtend, below]

theorem setWidth_sshiftRight_signExtend (value : Value) (amount : Nat) (positive : 0 < width)
    (narrow : width ≤ 64) :
    ((signExtend width value).sshiftRight amount).setWidth width =
      (value.setWidth width).sshiftRight amount := by
  apply BitVec.eq_of_toInt_eq
  rw [toInt_setWidth_eq_bmod _ narrow, BitVec.toInt_sshiftRight,
    toInt_signExtend_eq_toInt value positive narrow, ← BitVec.toInt_sshiftRight,
    BitVec.toInt_bmod_cancel]

theorem setWidth_neg_one (narrow : width ≤ 64) :
    (-1#64).setWidth width = BitVec.allOnes width := by
  rw [BitVec.setWidth_neg_of_le narrow, BitVec.setWidth_ofNat_of_le narrow,
    BitVec.neg_one_eq_allOnes]

/-- Away from zero divisors the quotient of the theory is the truncating one. -/
theorem smtSDiv_of_ne_zero {a b : BitVec width} (nonzero : b ≠ BitVec.ofNat width 0) :
    a.smtSDiv b = a.sdiv b := by
  have negated : -b ≠ BitVec.ofNat width 0 := by simpa using nonzero
  rw [BitVec.smtSDiv_eq, BitVec.sdiv_eq]
  cases a.msb <;> cases b.msb <;> simp [BitVec.smtUDiv_eq, nonzero, negated]

theorem sshiftRight_of_le {value : BitVec width} {amount : Nat} (wide : width ≤ amount) :
    value.sshiftRight amount = if value.msb then BitVec.allOnes width else BitVec.ofNat width 0 := by
  apply BitVec.eq_of_getLsbD_eq
  intro i below
  rw [BitVec.getLsbD_sshiftRight]
  cases value.msb <;>
    simp [below, show ¬amount + i < width by omega]

/-! ## Unary operators -/

theorem UnaryOp.setWidth_apply_negate {ty : CType} (notBool : ty ≠ .bool) (operandBits : Nat)
    (value : Value) :
    (UnaryOp.apply .negate ty operandBits value).setWidth ty.bits = -value.setWidth ty.bits := by
  rw [UnaryOp.apply, CType.setWidth_normalize notBool, BitVec.setWidth_neg_of_le ty.bits_le]

theorem UnaryOp.setWidth_apply_bitwiseNot {ty : CType} (notBool : ty ≠ .bool) (operandBits : Nat)
    (value : Value) :
    (UnaryOp.apply .bitwiseNot ty operandBits value).setWidth ty.bits =
      ~~~value.setWidth ty.bits := by
  rw [UnaryOp.apply, CType.setWidth_normalize notBool, BitVec.setWidth_not ty.bits_le]

theorem UnaryOp.apply_logicalNot (ty : CType) (operandBits : Nat) (value : Value) :
    UnaryOp.apply .logicalNot ty operandBits value =
      flag (value.setWidth operandBits == BitVec.ofNat operandBits 0) := by
  rw [← CType.normalize_flag ty]
  simp only [UnaryOp.apply, BitVec.ofNat_eq_ofNat, zeroExtend_eq_zero_iff, flag, beq_iff_eq]

theorem UnaryOp.normalize_apply (op : UnaryOp) (ty : CType) (operandBits : Nat) (value : Value) :
    ty.normalize (op.apply ty operandBits value) = op.apply ty operandBits value :=
  ty.normalize_normalize _

/-! ## Binary operators -/

/-- The low bits of a result are those of the bit-vector operator. -/
theorem BinaryOp.setWidth_apply (op : BinaryOp) {ty : CType} (notBool : ty ≠ .bool)
    (scalar : ty ≠ .struct) (lhs rhs : Value) :
    (op.apply ty lhs rhs).setWidth ty.bits =
      (bitOp op).apply (lhs.setWidth ty.bits) (rhs.setWidth ty.bits) := by
  have positive := CType.bits_pos scalar
  have narrow := ty.bits_le
  have amount : (zeroExtend ty.bits rhs).toNat = (rhs.setWidth ty.bits).toNat :=
    toNat_zeroExtend_eq_toNat ty.bits rhs
  simp only [BinaryOp.apply, CType.setWidth_normalize notBool, BitVec.ofNat_eq_ofNat]
  cases op with
  | add => exact BitVec.setWidth_add lhs rhs narrow
  | sub =>
    show (lhs - rhs).setWidth ty.bits = lhs.setWidth ty.bits - rhs.setWidth ty.bits
    rw [BitVec.sub_eq_add_neg, BitVec.setWidth_add _ _ narrow, BitVec.setWidth_neg_of_le narrow,
      BitVec.sub_eq_add_neg]
  | mul => exact BitVec.setWidth_mul lhs rhs narrow
  | udiv =>
    simp only [bitOp, Smt.BitOp.apply, BitVec.smtUDiv_eq, zeroExtend_eq_zero_iff]
    split
    · exact setWidth_neg_one narrow
    · exact setWidth_udiv_zeroExtend lhs rhs
  | sdiv =>
    simp only [bitOp, Smt.BitOp.apply, signExtend_eq_zero_iff rhs positive narrow,
      msb_signExtend_eq lhs positive narrow]
    split
    · next zero =>
      rw [zero, BitVec.smtSDiv_zero, BitVec.slt_zero_eq_msb]
      split
      · exact BitVec.setWidth_ofNat_of_le narrow 1
      · exact setWidth_neg_one narrow
    · next nonzero =>
      rw [smtSDiv_of_ne_zero nonzero, setWidth_sdiv_signExtend lhs rhs positive narrow]
  | urem =>
    simp only [bitOp, Smt.BitOp.apply, zeroExtend_eq_zero_iff]
    split
    · next zero => simp [zero]
    · exact setWidth_umod_zeroExtend lhs rhs
  | srem =>
    simp only [bitOp, Smt.BitOp.apply, signExtend_eq_zero_iff rhs positive narrow]
    split
    · next zero => simp [zero]
    · exact setWidth_srem_signExtend lhs rhs positive narrow
  | shl =>
    simp only [bitOp, Smt.BitOp.apply, amount]
    split
    · next wide => rw [BitVec.shiftLeft_eq_zero wide, BitVec.setWidth_zero]
    · rw [setWidth_zeroExtend _ (Nat.le_refl _), setWidth_shiftLeft_zeroExtend lhs _ narrow]
  | lshr =>
    simp only [bitOp, Smt.BitOp.apply, amount]
    split
    · next wide => rw [BitVec.ushiftRight_eq_zero wide, BitVec.setWidth_zero]
    · exact setWidth_ushiftRight_zeroExtend lhs _
  | ashr =>
    simp only [bitOp, Smt.BitOp.apply, amount, msb_signExtend_eq lhs positive narrow]
    split
    · next wide =>
      rw [sshiftRight_of_le wide]
      split
      · exact setWidth_neg_one narrow
      · exact BitVec.setWidth_zero _ _
    · exact setWidth_sshiftRight_signExtend lhs _ positive narrow
  | and => exact BitVec.setWidth_and
  | or => exact BitVec.setWidth_or
  | xor => exact BitVec.setWidth_xor

/-- Operands that agree in their low bits give the same result. -/
theorem BinaryOp.apply_congr (op : BinaryOp) {ty : CType} (notBool : ty ≠ .bool)
    (scalar : ty ≠ .struct) {lhs lhs' rhs rhs' : Value}
    (left : lhs.setWidth ty.bits = lhs'.setWidth ty.bits)
    (right : rhs.setWidth ty.bits = rhs'.setWidth ty.bits) :
    op.apply ty lhs rhs = op.apply ty lhs' rhs' := by
  have normal (a b : Value) : ty.normalize (op.apply ty a b) = op.apply ty a b :=
    ty.normalize_normalize _
  rw [← normal lhs rhs, ← normal lhs' rhs']
  apply CType.normalize_congr notBool scalar
  rw [BinaryOp.setWidth_apply op notBool scalar, BinaryOp.setWidth_apply op notBool scalar, left,
    right]

theorem BinaryOp.normalize_apply (op : BinaryOp) (ty : CType) (lhs rhs : Value) :
    ty.normalize (op.apply ty lhs rhs) = op.apply ty lhs rhs :=
  ty.normalize_normalize _

/-! ## Comparisons -/

/-- The relation between two words of one width. -/
def CompareOp.holds (op : CompareOp) (a b : BitVec width) : Bool :=
  match op with
  | .eq => a == b
  | .ne => !(a == b)
  | .ugt => b.ult a
  | .ule => a.ule b
  | .ult => a.ult b
  | .uge => b.ule a
  | .sgt => b.slt a
  | .sle => a.sle b
  | .slt => a.slt b
  | .sge => b.sle a

theorem CompareOp.apply_eq_holds (op : CompareOp) (lhs rhs : Value) (positive : 0 < width)
    (narrow : width ≤ 64) :
    op.apply width lhs rhs = op.holds (lhs.setWidth width) (rhs.setWidth width) := by
  have equal : (zeroExtend width lhs == zeroExtend width rhs) =
      (lhs.setWidth width == rhs.setWidth width) := by
    rw [Bool.eq_iff_iff, beq_iff_eq, beq_iff_eq, zeroExtend_eq_iff]
  cases op with
  | eq => exact equal
  | ne => exact congrArg not equal
  | ugt | ule | ult | uge =>
    simp only [CompareOp.apply, CompareOp.holds, BitVec.ult, BitVec.ule, toNat_zeroExtend_eq_toNat]
  | sgt | sle | slt | sge =>
    simp only [CompareOp.apply, CompareOp.holds, BitVec.slt, BitVec.sle,
      toInt_signExtend_eq_toInt _ positive narrow]

/-- At the width of its type and at all greater ones, a converted value differs from zero exactly
where it does at all. -/
theorem CompareOp.apply_ne_zero {ty : CType} (scalar : ty ≠ .struct) {value : Value}
    (normal : ty.normalize value = value) {bits : Nat} (wide : ty.bits ≤ bits) :
    CompareOp.apply .ne bits value (ty.normalize 0) = (value != 0) := by
  have zero_iff : value.setWidth bits = (0 : Value).setWidth bits ↔ value = 0 := by
    refine ⟨fun same ↦ ?_, fun zero ↦ by rw [zero]⟩
    refine (setWidth_eq_zero_iff_of_canonical (CType.extend_of_normalize_eq scalar normal)
      (CType.bits_pos scalar)).mp ?_
    calc value.setWidth ty.bits
        = (value.setWidth bits).setWidth ty.bits := (BitVec.setWidth_setWidth_of_le _ wide).symm
      _ = ((0 : Value).setWidth bits).setWidth ty.bits := by rw [same]
      _ = BitVec.ofNat ty.bits 0 := by simp
  rw [CType.normalize_zero, CompareOp.apply, Bool.eq_iff_iff, bne_iff_ne, bne_iff_ne, ne_eq, ne_eq,
    zeroExtend_eq_iff, zero_iff]

/-! ## Pointer arithmetic -/

theorem PointerOp.apply_difference (size : BitVec 64) (lhs rhs : Value) :
    PointerOp.apply .difference size lhs rhs = (lhs - rhs).smtSDiv (elementScale size) :=
  (smtSDiv_of_ne_zero (elementScale_ne_zero size)).symm

theorem PointerOp.resultType_ne_struct (op : PointerOp) : op.resultType ≠ .struct := by
  cases op <;> decide

theorem PointerOp.normalize_resultType (op : PointerOp) (value : Value) :
    op.resultType.normalize value = value :=
  CType.normalize_of_size_eq_eight (by cases op <;> rfl) value

end Concolic
