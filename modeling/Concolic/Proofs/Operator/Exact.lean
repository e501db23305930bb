import Concolic.Proofs.Operator.Checked
import Concolic.Proofs.Operator.LowBits

/-!
# Operators as exact arithmetic

What every operator computes, on all words: the residue of an exact number, or a relation between
exact numbers.  At a type of `n` bits the numbers are those that the low `n` bits of the operands
denote, without or with a sign; in pointer arithmetic they are the words themselves.
-/

namespace Concolic

open Smt (bitOp)

variable {width : Nat}

/-! ## Residues of numbers -/

theorem ofInt_neg_one_eq_allOnes : BitVec.ofInt width (-1) = BitVec.allOnes width := by
  rw [BitVec.ofInt_neg, ← BitVec.neg_one_eq_allOnes]
  rfl

theorem ofInt_sub (x y : Int) :
    BitVec.ofInt width (x - y) = BitVec.ofInt width x - BitVec.ofInt width y := by
  rw [Int.sub_eq_add_neg, BitVec.ofInt_add, BitVec.ofInt_neg, BitVec.sub_eq_add_neg]

theorem eq_ofInt_of_toInt {a : BitVec width} {number : Int} (same : a.toInt = number) :
    a = BitVec.ofInt width number := by
  rw [← same, BitVec.ofInt_toInt]

theorem eq_ofInt_of_toNat {a : BitVec width} {number : Nat} (same : a.toNat = number) :
    a = BitVec.ofInt width number := by
  rw [← same, BitVec.ofInt_natCast, BitVec.ofNat_toNat, BitVec.setWidth_eq]

theorem msb_eq_true_iff_toInt_neg (a : BitVec width) : a.msb = true ↔ a.toInt < 0 := by
  rw [BitVec.msb_eq_toInt, decide_eq_true_eq]

theorem smtUDiv_eq_ofInt (a b : BitVec width) :
    a.smtUDiv b =
      BitVec.ofInt width (if b.toNat = 0 then -1 else (a.toNat / b.toNat : Nat)) := by
  rw [BitVec.smtUDiv_eq]
  by_cases zero : b.toNat = 0
  · rw [if_pos zero, if_pos (BitVec.eq_of_toNat_eq zero), ofInt_neg_one_eq_allOnes]
  · rw [if_neg zero, if_neg fun same ↦ zero (by rw [same]; rfl)]
    exact eq_ofInt_of_toNat BitVec.toNat_udiv

/-- The quotient of the least number by -1 is the only one that is not its own residue. -/
theorem smtSDiv_eq_ofInt (a b : BitVec width) :
    a.smtSDiv b =
      BitVec.ofInt width
        (if b.toInt = 0 then (if a.toInt < 0 then 1 else -1) else a.toInt.tdiv b.toInt) := by
  by_cases zero : b.toInt = 0
  · obtain rfl : b = BitVec.ofNat width 0 :=
      BitVec.eq_of_toInt_eq (by rw [zero, BitVec.toInt_zero])
    rw [if_pos zero, BitVec.smtSDiv_zero, BitVec.slt_zero_eq_msb]
    simp only [msb_eq_true_iff_toInt_neg]
    split
    · rfl
    · exact ofInt_neg_one_eq_allOnes.symm
  · have nonzero : b ≠ BitVec.ofNat width 0 := fun same ↦ zero (by rw [same, BitVec.toInt_zero])
    apply BitVec.eq_of_toInt_eq
    rw [if_neg zero, smtSDiv_of_ne_zero nonzero, BitVec.toInt_sdiv, BitVec.toInt_ofInt]

theorem umod_eq_ofInt (a b : BitVec width) :
    a % b = BitVec.ofInt width (if b.toNat = 0 then a.toNat else (a.toNat % b.toNat : Nat)) := by
  by_cases zero : b.toNat = 0
  · obtain rfl : b = BitVec.ofNat width 0 := BitVec.eq_of_toNat_eq zero
    rw [if_pos zero, BitVec.umod_zero]
    exact eq_ofInt_of_toNat rfl
  · rw [if_neg zero]
    exact eq_ofInt_of_toNat BitVec.toNat_umod

theorem srem_eq_ofInt (a b : BitVec width) :
    a.srem b =
      BitVec.ofInt width (if b.toInt = 0 then a.toInt else a.toInt.tmod b.toInt) := by
  apply eq_ofInt_of_toInt
  rw [BitVec.toInt_srem]
  split
  · next zero => rw [zero, Int.tmod_zero]
  · rfl

theorem shiftLeft_eq_ofInt (a : BitVec width) (amount : Nat) :
    a <<< amount =
      BitVec.ofInt width (if width ≤ amount then 0 else (a.toNat * 2 ^ amount : Nat)) := by
  split
  · next wide => rw [BitVec.shiftLeft_eq_zero wide, BitVec.ofInt_ofNat]
  · rw [BitVec.ofInt_natCast, ← Nat.shiftLeft_eq]
    exact BitVec.eq_of_toNat_eq (by rw [BitVec.toNat_shiftLeft, BitVec.toNat_ofNat])

theorem ushiftRight_eq_ofInt (a : BitVec width) (amount : Nat) :
    a >>> amount =
      BitVec.ofInt width (if width ≤ amount then 0 else (a.toNat / 2 ^ amount : Nat)) := by
  split
  · next wide => rw [BitVec.ushiftRight_eq_zero wide, BitVec.ofInt_ofNat]
  · exact eq_ofInt_of_toNat (by rw [BitVec.toNat_ushiftRight, Nat.shiftRight_eq_div_pow])

theorem sshiftRight_eq_ofInt (a : BitVec width) (amount : Nat) :
    a.sshiftRight amount =
      BitVec.ofInt width
        (if width ≤ amount then (if a.toInt < 0 then -1 else 0)
          else a.toInt / (2 ^ amount : Nat)) := by
  split
  · next wide =>
    rw [sshiftRight_of_le wide]
    simp only [msb_eq_true_iff_toInt_neg]
    split
    · exact ofInt_neg_one_eq_allOnes.symm
    · rfl
  · exact eq_ofInt_of_toInt (by rw [BitVec.toInt_sshiftRight, Int.shiftRight_eq_div_pow])

/-! ## Binary operators -/

/-- The number whose residue is the result.  A quotient by zero has all bits set, or is 1 for a
negative signed dividend; a remainder by zero is the dividend. -/
def BinaryOp.number (op : BinaryOp) (a b : BitVec width) : Int :=
  match op with
  | .add => a.toInt + b.toInt
  | .sub => a.toInt - b.toInt
  | .mul => a.toInt * b.toInt
  | .udiv => if b.toNat = 0 then -1 else (a.toNat / b.toNat : Nat)
  | .sdiv => if b.toInt = 0 then (if a.toInt < 0 then 1 else -1) else a.toInt.tdiv b.toInt
  | .urem => if b.toNat = 0 then a.toNat else (a.toNat % b.toNat : Nat)
  | .srem => if b.toInt = 0 then a.toInt else a.toInt.tmod b.toInt
  | .shl => if width ≤ b.toNat then 0 else (a.toNat * 2 ^ b.toNat : Nat)
  | .lshr => if width ≤ b.toNat then 0 else (a.toNat / 2 ^ b.toNat : Nat)
  | .ashr =>
    if width ≤ b.toNat then (if a.toInt < 0 then -1 else 0) else a.toInt / (2 ^ b.toNat : Nat)
  | .and => (a.toNat &&& b.toNat : Nat)
  | .or => (a.toNat ||| b.toNat : Nat)
  | .xor => (a.toNat ^^^ b.toNat : Nat)

/-- The operators of the solver are exact arithmetic on residues. -/
theorem bitOp_apply_eq_ofInt (op : BinaryOp) (a b : BitVec width) :
    (bitOp op).apply a b = BitVec.ofInt width (op.number a b) := by
  cases op with
  | add =>
    show a + b = BitVec.ofInt width (a.toInt + b.toInt)
    rw [BitVec.ofInt_add, BitVec.ofInt_toInt, BitVec.ofInt_toInt]
  | sub =>
    show a - b = BitVec.ofInt width (a.toInt - b.toInt)
    rw [ofInt_sub, BitVec.ofInt_toInt, BitVec.ofInt_toInt]
  | mul =>
    show a * b = BitVec.ofInt width (a.toInt * b.toInt)
    rw [BitVec.ofInt_mul, BitVec.ofInt_toInt, BitVec.ofInt_toInt]
  | udiv => exact smtUDiv_eq_ofInt a b
  | sdiv => exact smtSDiv_eq_ofInt a b
  | urem => exact umod_eq_ofInt a b
  | srem => exact srem_eq_ofInt a b
  | shl => exact shiftLeft_eq_ofInt a b.toNat
  | lshr => exact ushiftRight_eq_ofInt a b.toNat
  | ashr => exact sshiftRight_eq_ofInt a b.toNat
  | and => exact eq_ofInt_of_toNat (BitVec.toNat_and a b)
  | or => exact eq_ofInt_of_toNat (BitVec.toNat_or a b)
  | xor => exact eq_ofInt_of_toNat (BitVec.toNat_xor a b)

/-- What an operator makes of two words at a type. -/
structure BinaryOp.IsExact (op : BinaryOp) (ty : CType) (lhs rhs : Value) : Prop where
  computed : op.compute? ty lhs rhs = some (op.apply ty lhs rhs)
  lowBits : op.apply ty lhs rhs =
    ty.normalize
      (((bitOp op).apply (lhs.setWidth ty.bits) (rhs.setWidth ty.bits)).setWidth 64)
  residue : (bitOp op).apply (lhs.setWidth ty.bits) (rhs.setWidth ty.bits) =
    BitVec.ofInt ty.bits (op.number (lhs.setWidth ty.bits) (rhs.setWidth ty.bits))
  congruent : ∀ lhs' rhs' : Value, lhs'.toNat % 2 ^ ty.bits = lhs.toNat % 2 ^ ty.bits →
    rhs'.toNat % 2 ^ ty.bits = rhs.toNat % 2 ^ ty.bits → op.apply ty lhs' rhs' = op.apply ty lhs rhs

theorem setWidth_eq_iff_mod (a b : Value) :
    a.setWidth width = b.setWidth width ↔ a.toNat % 2 ^ width = b.toNat % 2 ^ width := by
  rw [← BitVec.toNat_inj, BitVec.toNat_setWidth, BitVec.toNat_setWidth]

theorem BinaryOp.isExact (op : BinaryOp) {ty : CType} (notBool : ty ≠ .bool)
    (scalar : ty ≠ .struct) (lhs rhs : Value) : op.IsExact ty lhs rhs where
  computed := op.compute?_eq ty lhs rhs
  lowBits := by
    rw [← op.normalize_apply ty lhs rhs]
    apply CType.normalize_congr notBool scalar
    rw [op.setWidth_apply notBool scalar, BitVec.setWidth_setWidth_of_le _ ty.bits_le,
      BitVec.setWidth_eq]
  residue := bitOp_apply_eq_ofInt op _ _
  congruent lhs' rhs' left right :=
    op.apply_congr notBool scalar ((setWidth_eq_iff_mod lhs' lhs).mpr left)
      ((setWidth_eq_iff_mod rhs' rhs).mpr right)

/-! ## Comparisons -/

/-- The relation between the numbers that two words denote. -/
def CompareOp.Relates (op : CompareOp) (a b : BitVec width) : Prop :=
  match op with
  | .eq => a.toNat = b.toNat
  | .ne => a.toNat ≠ b.toNat
  | .ugt => b.toNat < a.toNat
  | .ule => a.toNat ≤ b.toNat
  | .ult => a.toNat < b.toNat
  | .uge => b.toNat ≤ a.toNat
  | .sgt => b.toInt < a.toInt
  | .sle => a.toInt ≤ b.toInt
  | .slt => a.toInt < b.toInt
  | .sge => b.toInt ≤ a.toInt

theorem CompareOp.holds_eq_true_iff (op : CompareOp) (a b : BitVec width) :
    op.holds a b = true ↔ op.Relates a b := by
  cases op with
  | eq | ne => simp [holds, Relates, BitVec.toNat_inj]
  | ugt | ule | ult | uge | sgt | sle | slt | sge => exact decide_eq_true_iff

theorem CompareOp.apply_negate (op : CompareOp) (bits : Nat) (lhs rhs : Value) :
    op.negate.apply bits lhs rhs = !op.apply bits lhs rhs := by
  cases op with
  | eq => rfl
  | ne => exact (Bool.not_not _).symm
  | ugt | ult | ule | uge => simp only [negate, apply, BitVec.ule_eq_not_ult, Bool.not_not]
  | sgt | slt | sle | sge => simp only [negate, apply, BitVec.sle_eq_not_slt, Bool.not_not]

/-- What a comparison of the low `bits` bits makes of two words. -/
structure CompareOp.IsExact (op : CompareOp) (bits : Nat) (lhs rhs : Value) : Prop where
  computed : op.compute? bits lhs rhs = some (op.apply bits lhs rhs)
  relates : op.apply bits lhs rhs = true ↔ op.Relates (lhs.setWidth bits) (rhs.setWidth bits)
  complement : op.negate.apply bits lhs rhs = !op.apply bits lhs rhs

theorem CompareOp.isExact (op : CompareOp) {bits : Nat} (positive : 0 < bits) (narrow : bits ≤ 64)
    (lhs rhs : Value) : op.IsExact bits lhs rhs where
  computed := op.compute?_eq bits lhs rhs
  relates := by rw [op.apply_eq_holds lhs rhs positive narrow, op.holds_eq_true_iff]
  complement := op.apply_negate bits lhs rhs

/-! ## Pointer arithmetic -/

/-- The size of an element, read as a signed word; an element without a size counts as one byte. -/
def elementNumber (size : BitVec 64) : Int :=
  (BitVec.ofNat 64 (max size.toNat 1)).toInt

theorem toInt_elementScale (size : BitVec 64) :
    (elementScale size).toInt = elementNumber size := by
  refine congrArg BitVec.toInt ?_
  unfold elementScale
  split
  · next zero =>
    rw [zero]
    rfl
  · next nonzero =>
    have positive : 1 ≤ size.toNat :=
      Nat.one_le_iff_ne_zero.mpr fun zero ↦ nonzero (BitVec.eq_of_toNat_eq zero)
    rw [Nat.max_eq_left positive, BitVec.ofNat_toNat, BitVec.setWidth_eq]

/-- The number whose residue is the result; a distance wraps around before it is divided. -/
def PointerOp.number (op : PointerOp) (scale lhs rhs : Int) : Int :=
  match op with
  | .addIndex => lhs + rhs * scale
  | .subIndex => lhs - rhs * scale
  | .difference => ((lhs - rhs).bmod (2 ^ 64)).tdiv scale

/-- What pointer arithmetic makes of two words. -/
structure PointerOp.IsExact (op : PointerOp) (size : BitVec 64) (lhs rhs : Value) : Prop where
  computed : op.compute? size lhs rhs = some (op.apply size lhs rhs)
  residue : op.apply size lhs rhs =
    BitVec.ofInt 64 (op.number (elementNumber size) lhs.toInt rhs.toInt)
  nonzero : elementNumber size ≠ 0

theorem PointerOp.isExact (op : PointerOp) (size : BitVec 64) (lhs rhs : Value) :
    op.IsExact size lhs rhs where
  computed := op.compute?_eq size lhs rhs
  residue := by
    rw [← toInt_elementScale]
    cases op with
    | addIndex =>
      rw [apply, number, BitVec.ofInt_add, BitVec.ofInt_mul, BitVec.ofInt_toInt,
        BitVec.ofInt_toInt, BitVec.ofInt_toInt]
    | subIndex =>
      rw [apply, number, ofInt_sub, BitVec.ofInt_mul, BitVec.ofInt_toInt, BitVec.ofInt_toInt,
        BitVec.ofInt_toInt]
    | difference =>
      apply BitVec.eq_of_toInt_eq
      rw [apply, number, BitVec.toInt_sdiv, BitVec.toInt_sub, BitVec.toInt_ofInt]
  nonzero := by
    rw [← toInt_elementScale]
    exact fun zero ↦ elementScale_ne_zero size (BitVec.eq_of_toInt_eq zero)

/-! ## All operators -/

/-- Every operator has a result on all words, which is that of exact arithmetic. -/
theorem operators_exact (lhs rhs : Value) :
    (∀ ty : CType, ty ≠ .bool → ty ≠ .struct →
      (∀ op : BinaryOp, op.IsExact ty lhs rhs) ∧ ∀ op : CompareOp, op.IsExact ty.bits lhs rhs) ∧
    ∀ (op : PointerOp) (size : BitVec 64), op.IsExact size lhs rhs :=
  ⟨fun ty notBool scalar ↦ ⟨fun op ↦ op.isExact notBool scalar lhs rhs,
    fun op ↦ op.isExact (CType.bits_pos scalar) ty.bits_le lhs rhs⟩,
    fun op size ↦ op.isExact size lhs rhs⟩

/-- The least number by -1, both with bits above their type, and an element of negative size. -/
theorem operators_exact_wrapped :
    CType.int ≠ .bool ∧ CType.int ≠ .struct ∧
      BinaryOp.IsExact .sdiv .int 0x180000000 0x5ffffffff ∧
      BinaryOp.apply .sdiv .int 0x180000000 0x5ffffffff = -0x80000000 ∧
      CompareOp.IsExact .slt 32 0x180000000 0x5ffffffff ∧
      CompareOp.apply .slt 32 0x180000000 0x5ffffffff = true ∧
      PointerOp.IsExact .addIndex 0x8000000000000001 0x180000000 0x5ffffffff ∧
      elementNumber 0x8000000000000001 = -0x7fffffffffffffff := by
  have notBool : CType.int ≠ .bool := by decide
  have scalar : CType.int ≠ .struct := by decide
  obtain ⟨atType, pointers⟩ := operators_exact 0x180000000 0x5ffffffff
  obtain ⟨binary, compare⟩ := atType .int notBool scalar
  exact ⟨notBool, scalar, binary .sdiv, by decide, compare .slt, by decide,
    pointers .addIndex 0x8000000000000001, by decide⟩

end Concolic
