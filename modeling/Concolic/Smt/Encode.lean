import Concolic.Record
import Concolic.Smt.Context

/-!
# Encoding as solver terms

An expression becomes a bit-vector of its own width, a condition a truth value.  Operands are
brought to the width of the operator, by sign where their own type is signed.  A constraint is its
condition in the direction taken, a path the conjunction of its constraints, and a memory equates
every binding with the constant of its cell.  Constants are declared on the way, and stay declared
when an aggregate is met that has no term.
-/

namespace Concolic.Smt

abbrev Encoder := ExceptT Fault (StateM Context)

namespace Encoder

/-- The constant of a symbol, declared if it is new. -/
def constant (symbol : Symbol) (bits : Nat) : Encoder Term := do
  modify fun context ↦ context.reference symbol bits
  return .symbol symbol

end Encoder

/-- How a node is written where a bit-vector is asked for and where a truth value is. -/
structure Encoding where
  word : Encoder Term
  condition : Encoder Term

namespace Term

def resize (term : Term) (width target : Nat) (signed : Bool) : Term :=
  if width = target then term
  else if width < target then
    if signed then .signExtend (target - width) term else .zeroExtend (target - width) term
  else .extract (target - 1) 0 term

/-- A truth value as the number 1 or 0. -/
def ofCondition (condition : Term) (bits : Nat) : Term :=
  .ite condition (.constant 1 bits) (.constant 0 bits)

def isNonzero (term : Term) (bits : Nat) : Term :=
  .negation (.rel .eq term (.constant 0 bits))

/-- The bytes `first` to `past` of a concrete value. -/
def filler (value : Value) (first past : Nat) : Term :=
  .constant (value >>> (8 * first)) (8 * (past - first))

/-- Puts each piece above those before it. -/
def stack : List Term → Option Term
  | [] => none
  | lowest :: rest => some (rest.foldl (fun below piece ↦ .concat piece below) lowest)

end Term

def bitOp : BinaryOp → BitOp
  | .add => .add
  | .sub => .sub
  | .mul => .mul
  | .udiv => .udiv
  | .sdiv => .sdiv
  | .urem => .urem
  | .srem => .srem
  | .shl => .shl
  | .lshr => .lshr
  | .ashr => .ashr
  | .and => .and
  | .or => .or
  | .xor => .xor

def comparison (op : CompareOp) (lhs rhs : Term) : Term :=
  match op with
  | .eq => .rel .eq lhs rhs
  | .ne => .negation (.rel .eq lhs rhs)
  | .ugt => .rel .ult rhs lhs
  | .ule => .rel .ule lhs rhs
  | .ult => .rel .ult lhs rhs
  | .uge => .rel .ule rhs lhs
  | .sgt => .rel .slt rhs lhs
  | .sle => .rel .sle lhs rhs
  | .slt => .rel .slt lhs rhs
  | .sge => .rel .sle rhs lhs

def pointerArithmetic (op : PointerOp) (lhs rhs : Term) (size : BitVec 64) : Term :=
  let scale := Term.constant (elementScale size) CType.pointer.bits
  match op with
  | .addIndex => .binary .add lhs (.binary .mul rhs scale)
  | .subIndex => .binary .sub lhs (.binary .mul rhs scale)
  | .difference => .binary .sdiv (.binary .sub lhs rhs) scale

namespace Encoding

/-- A node that has no truth value of its own is true where it is not zero. -/
def ofWord (word : Encoder Term) (bits : Nat) : Encoding where
  word := word
  condition := return (← word).isNonzero bits

/-- A truth value is 1 or 0 where a number is asked for. -/
def ofCondition (condition : Encoder Term) (bits : Nat) : Encoding where
  word := return (← condition).ofCondition bits
  condition := condition

/-- The bit-vector of a node that has the width and the sign of `e`, at another width. -/
def resized (encoding : Encoding) (e : Expr) (bits : Nat) : Encoder Term :=
  return (← encoding.word).resize e.bits bits e.isSigned

end Encoding

mutual

def encoding : Expr → Encoding
  | .input id ty _ => .ofWord (Encoder.constant (.input id) ty.bits) ty.bits
  | .const ty value => .ofWord (return .constant value ty.bits) ty.bits
  | .unary op e ty _ =>
    match op with
    | .negate => .ofWord (return .neg (← (encoding e).resized e ty.bits)) ty.bits
    | .bitwiseNot => .ofWord (return .not (← (encoding e).resized e ty.bits)) ty.bits
    | .logicalNot => .ofCondition (return .negation (← (encoding e).condition)) ty.bits
    | .unsignedCast => .ofWord (return (← (encoding e).word).resize e.bits ty.bits false) ty.bits
    | .signedCast => .ofWord (return (← (encoding e).word).resize e.bits ty.bits true) ty.bits
  | .binary op l r ty _ =>
    .ofWord
      (do
        let lhs ← (encoding l).resized l ty.bits
        let rhs ← (encoding r).resized r ty.bits
        return .binary (bitOp op) lhs rhs)
      ty.bits
  | .compare op l r ty _ =>
    .ofCondition
      (do
        let lhs ← (encoding l).resized l (max l.bits r.bits)
        let rhs ← (encoding r).resized r (max l.bits r.bits)
        return comparison op lhs rhs)
      ty.bits
  | .pointer op l r size _ =>
    .ofWord
      (do
        let lhs ← (encoding l).resized l CType.pointer.bits
        let rhs ← (encoding r).resized r CType.pointer.bits
        return pointerArithmetic op lhs rhs size)
      op.resultType.bits
  | .slice e offset bytes _ =>
    .ofWord
      (return .extract (8 * (offset.toNat + bytes.toNat) - 1) (8 * offset.toNat)
        (← (encoding e).word))
      (8 * bytes.toNat)
  | .assemble ty size parts value =>
    .ofWord
      (if ty.isStruct then throw (.structTerm size.toNat)
      else do
        let pieces ← encodePieces value size.toNat parts 0
        return (Term.stack pieces).getD (.constant value (8 * size.toNat)))
      (8 * size.toNat)

/-- The parts from the byte `first` on, lowest first, with the bytes of the value between them. -/
def encodePieces (value : Value) (size : Nat) :
    List (BitVec 32 × Expr) → Nat → Encoder (List Term)
  | [], first => return if first < size then [.filler value first size] else []
  | (offset, e) :: rest, first => do
    let gap := if first < offset.toNat then [Term.filler value first offset.toNat] else []
    let piece ← (encoding e).word
    let above ← encodePieces value size rest (offset.toNat + e.bytes)
    return gap ++ piece :: above

end

def encodeExpr (e : Expr) : Encoder Term :=
  (encoding e).word

def encodeCondition (e : Expr) : Encoder Term :=
  (encoding e).condition

def encodeConstraint (constraint : Constraint) : Encoder Term := do
  let condition ← encodeCondition constraint.condition
  return if constraint.taken then condition else .negation condition

def encodePath (path : Path) : Encoder Term :=
  return .all (← path.constraints.mapM encodeConstraint)

/-- Equates the constant of a cell with the expression bound there. -/
def encodeCell (address : Address) (e : Expr) : Encoder Term := do
  let cell ← Encoder.constant (.cell address) e.bits
  let term ← encodeExpr e
  return .rel .eq cell term

def encodeMemory (memory : Memory) : Encoder Term :=
  return .all (← memory.cells.entries.mapM fun entry ↦ encodeCell entry.1 entry.2)

/-- Runs an encoding in a context, which keeps what was declared even on a fault. -/
def Encoder.runIn {α : Type} (encoder : Encoder α) (context : Context) :
    Except Fault α × Context :=
  (ExceptT.run encoder).run context

end Concolic.Smt
