import Concolic.Operator.Basic

/-!
# Concrete meaning of the operators

Every operator works on 64-bit words and answers at the width of its result type.  Operands are
first reduced to that width, so that only their low bits matter.  Division by zero and shifts by
the width or more follow the bit-vector conventions: a quotient of all ones (1 for a negative
signed dividend), the dividend as remainder, and zero or the sign as the result of a shift.
-/

namespace Concolic

def UnaryOp.apply (op : UnaryOp) (ty : CType) (operandBits : Nat) (value : Value) : Value :=
  ty.normalize <|
    match op with
    | .negate => -value
    | .logicalNot => if zeroExtend operandBits value = 0 then 1 else 0
    | .bitwiseNot => ~~~value
    | .unsignedCast => zeroExtend operandBits value
    | .signedCast => signExtend operandBits value

def BinaryOp.apply (op : BinaryOp) (ty : CType) (lhs rhs : Value) : Value :=
  let ul := zeroExtend ty.bits lhs
  let ur := zeroExtend ty.bits rhs
  let sl := signExtend ty.bits lhs
  let sr := signExtend ty.bits rhs
  ty.normalize <|
    match op with
    | .add => lhs + rhs
    | .sub => lhs - rhs
    | .mul => lhs * rhs
    | .udiv => if ur = 0 then -1 else ul / ur
    | .sdiv => if sr = 0 then (if sl.msb then 1 else -1) else sl.sdiv sr
    | .urem => if ur = 0 then lhs else ul % ur
    | .srem => if sr = 0 then lhs else sl.srem sr
    | .shl => if ty.bits ≤ ur.toNat then 0 else zeroExtend ty.bits (ul <<< ur.toNat)
    | .lshr => if ty.bits ≤ ur.toNat then 0 else ul >>> ur.toNat
    | .ashr =>
      if ty.bits ≤ ur.toNat then (if sl.msb then -1 else 0) else sl.sshiftRight ur.toNat
    | .and => lhs &&& rhs
    | .or => lhs ||| rhs
    | .xor => lhs ^^^ rhs

/-- Compares the low `bits` bits of the operands. -/
def CompareOp.apply (op : CompareOp) (bits : Nat) (lhs rhs : Value) : Bool :=
  let ul := zeroExtend bits lhs
  let ur := zeroExtend bits rhs
  let sl := signExtend bits lhs
  let sr := signExtend bits rhs
  match op with
  | .eq => ul == ur
  | .ne => ul != ur
  | .ugt => ur.ult ul
  | .ule => ul.ule ur
  | .ult => ul.ult ur
  | .uge => ur.ule ul
  | .sgt => sr.slt sl
  | .sle => sl.sle sr
  | .slt => sl.slt sr
  | .sge => sr.sle sl

/-- An element of size zero counts as one byte. -/
def elementScale (size : BitVec 64) : Value :=
  if size = 0 then 1 else size

def PointerOp.apply (op : PointerOp) (size : BitVec 64) (lhs rhs : Value) : Value :=
  match op with
  | .addIndex => lhs + rhs * elementScale size
  | .subIndex => lhs - rhs * elementScale size
  | .difference => (lhs - rhs).sdiv (elementScale size)

/-- A truth value as a number. -/
def flag (truth : Bool) : Value :=
  if truth then 1 else 0

theorem elementScale_ne_zero (size : BitVec 64) : elementScale size ≠ 0 := by
  unfold elementScale
  split
  · decide
  · assumption

end Concolic
