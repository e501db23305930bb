import Concolic.CType

/-!
# Operators

The operators an instrumented program can report: on one operand, on two, comparisons, and
arithmetic on addresses.  `Operator.ofTag?` reads the number that stands for one in an event.
-/

namespace Concolic

inductive UnaryOp where
  | negate
  | logicalNot
  | bitwiseNot
  | unsignedCast
  | signedCast
deriving DecidableEq, Repr, Inhabited

inductive BinaryOp where
  | add
  | sub
  | mul
  | udiv
  | sdiv
  | urem
  | srem
  | shl
  | lshr
  | ashr
  | and
  | or
  | xor
deriving DecidableEq, Repr, Inhabited

inductive CompareOp where
  | eq
  | ne
  | ugt
  | ule
  | ult
  | uge
  | sgt
  | sle
  | slt
  | sge
deriving DecidableEq, Repr, Inhabited

/-- Arithmetic on addresses; the size of the element scales the integer. -/
inductive PointerOp where
  | addIndex
  | subIndex
  | difference
deriving DecidableEq, Repr, Inhabited

/-- `untracked` stands for an operation that only its concrete result describes. -/
inductive Operator where
  | unary (op : UnaryOp)
  | binary (op : BinaryOp)
  | compare (op : CompareOp)
  | pointer (op : PointerOp)
  | untracked
deriving DecidableEq, Repr

namespace UnaryOp

def isCast : UnaryOp → Bool
  | .unsignedCast | .signedCast => true
  | _ => false

end UnaryOp

namespace BinaryOp

def symbol : BinaryOp → String
  | .add => "+"
  | .sub => "-"
  | .mul => "*"
  | .udiv => "/"
  | .sdiv => "s/"
  | .urem => "%"
  | .srem => "s%"
  | .shl => "<<"
  | .lshr => ">>"
  | .ashr => "s>>"
  | .and => "&"
  | .or => "|"
  | .xor => "^"

end BinaryOp

namespace CompareOp

/-- The comparison that holds exactly where the given one does not. -/
def negate : CompareOp → CompareOp
  | .eq => .ne
  | .ne => .eq
  | .ugt => .ule
  | .ule => .ugt
  | .ult => .uge
  | .uge => .ult
  | .sgt => .sle
  | .sle => .sgt
  | .slt => .sge
  | .sge => .slt

def isSigned : CompareOp → Bool
  | .sgt | .sle | .slt | .sge => true
  | _ => false

def symbol : CompareOp → String
  | .eq => "=="
  | .ne => "!="
  | .ugt => ">"
  | .ule => "<="
  | .ult => "<"
  | .uge => ">="
  | .sgt => "s>"
  | .sle => "s<="
  | .slt => "s<"
  | .sge => "s>="

end CompareOp

namespace PointerOp

def resultType : PointerOp → CType
  | .addIndex | .subIndex => .pointer
  | .difference => .distance

def rightType : PointerOp → CType
  | .addIndex | .subIndex => .distance
  | .difference => .pointer

def name : PointerOp → String
  | .addIndex => "ptradd"
  | .subIndex => "ptrsub"
  | .difference => "ptrdiff"

end PointerOp

namespace Operator

/-- The operator at position `n` bears the tag `n`. -/
def tagged : List Operator :=
  [.binary .add, .binary .sub, .binary .mul, .binary .udiv, .binary .sdiv, .binary .urem,
    .binary .srem, .binary .shl, .binary .lshr, .binary .ashr, .binary .and, .binary .or,
    .binary .xor, .compare .eq, .compare .ne, .compare .ugt, .compare .sgt, .compare .ule,
    .compare .sle, .compare .ult, .compare .slt, .compare .uge, .compare .sge, .untracked,
    .unary .negate, .unary .bitwiseNot, .unary .logicalNot, .unary .unsignedCast,
    .unary .signedCast, .pointer .addIndex, .pointer .subIndex, .pointer .difference]

def ofTag? (n : Nat) : Option Operator :=
  tagged[n]?

def arity : Operator → Nat
  | .unary _ => 1
  | _ => 2

end Operator

end Concolic
