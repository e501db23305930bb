import Concolic.Expr.Basic

/-!
# Infix text of expressions

Operators bind at levels 1 (tightest) to 10.  Infix operators associate to the left: the left
operand is written at the operator's own level and the right one a level below.  An operand whose
level is too high stands in parentheses.  Inputs are `x0`, `x1`, …, constants are signed decimals.
-/

namespace Concolic

def decimal (value : Value) : String :=
  toString value.toInt

namespace BinaryOp

def level : BinaryOp → Nat
  | .mul | .udiv | .sdiv | .urem | .srem => 3
  | .add | .sub => 4
  | .shl | .lshr | .ashr => 5
  | .and => 8
  | .xor => 9
  | .or => 10

end BinaryOp

namespace CompareOp

def level : CompareOp → Nat
  | .eq | .ne => 7
  | _ => 6

end CompareOp

namespace Expr

def level : Expr → Nat
  | .unary .. => 2
  | .binary op .. => op.level
  | .compare op .. => op.level
  | _ => 1

/-- The loosest level of all. -/
def topLevel : Nat := 10

def parenthesize (needed : Bool) (inner : String) : String :=
  if needed then "(" ++ inner ++ ")" else inner

mutual

/-- The text of an expression where operators up to `limit` may stand bare. -/
def textAt : Expr → Nat → String
  | .input id _ _, _ => s!"x{id.toNat}"
  | .const _ value, _ => decimal value
  | .unary op e ty _, limit =>
    parenthesize (limit < 2) <|
      match op with
      | .negate => "-" ++ textAt e 2
      | .bitwiseNot => "~" ++ textAt e 2
      | .logicalNot => "!" ++ textAt e 2
      | .unsignedCast | .signedCast => textAt e 1 ++ " as " ++ ty.text
  | .binary op l r _ _, limit =>
    parenthesize (limit < op.level) <|
      textAt l op.level ++ " " ++ op.symbol ++ " " ++ textAt r (op.level - 1)
  | .compare op l r _ _, limit =>
    parenthesize (limit < op.level) <|
      textAt l op.level ++ " " ++ op.symbol ++ " " ++ textAt r (op.level - 1)
  | .pointer op l r size _, _ =>
    op.name ++ "(" ++ textAt l topLevel ++ ", " ++ textAt r topLevel ++ ", size=" ++
      toString size.toNat ++ ")"
  | .slice e offset bytes _, _ =>
    "extract(" ++ textAt e topLevel ++ ", offset=" ++ toString offset.toNat ++ ", bytes=" ++
      toString bytes.toNat ++ ")"
  | .assemble ty size parts _, _ =>
    "compose(" ++ (if ty.isStruct then "size=" ++ toString size.toNat else ty.text) ++
      textOfParts parts ++ ")"

def textOfParts : List (BitVec 32 × Expr) → String
  | [] => ""
  | (offset, e) :: rest =>
    ", " ++ toString offset.toNat ++ ": " ++ textAt e topLevel ++ textOfParts rest

end

def text (e : Expr) : String :=
  e.textAt topLevel

instance : ToString Expr := ⟨text⟩

/-- An expression stands in parentheses exactly where its level exceeds the limit. -/
theorem textAt_eq_parenthesize (e : Expr) (limit : Nat) (positive : 1 ≤ limit) :
    e.textAt limit = parenthesize (limit < e.level) (e.textAt (max limit e.level)) := by
  have bare (n : Nat) : ¬max limit n < n := by omega
  cases e with
  | unary | binary | compare => simp only [textAt, level, parenthesize, bare, decide_false]; rfl
  | _ => simp [textAt, level, parenthesize, show ¬limit < 1 by omega]

end Expr

end Concolic
