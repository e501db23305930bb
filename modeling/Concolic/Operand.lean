import Concolic.Expr.Leaves

/-!
# Operands

What an evaluation step consumes and produces: a plain value, or an expression where the value
depends on the inputs.
-/

namespace Concolic

inductive Operand where
  | concrete (typed : TypedValue)
  | symbolic (e : Expr)
deriving DecidableEq, Repr

namespace Operand

def ty : Operand → CType
  | .concrete typed => typed.ty
  | .symbolic e => e.ty

def value : Operand → Value
  | .concrete typed => typed.value
  | .symbolic e => e.value

def bytes : Operand → Nat
  | .concrete typed => typed.bytes
  | .symbolic e => e.bytes

def isSymbolic : Operand → Bool
  | .concrete _ => false
  | .symbolic _ => true

/-- A plain value as a node of the type that its place asks for, or of its own type where that is
an aggregate. -/
def lift (operand : Operand) (ty : CType) : Expr :=
  match operand with
  | .symbolic e => e
  | .concrete typed =>
    .mkConst (if ty.isStruct then typed.ty else ty) typed.value

end Operand

end Concolic
