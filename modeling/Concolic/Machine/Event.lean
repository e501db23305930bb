import Concolic.Fault

/-!
# Events

What an instrumented program reports while it runs, in program order.  An event carries the number
of the instruction and the concrete result that the program computed.  Operators can also arrive
as numbered tags, which `ofTags` and `ofPointerTag` decode.
-/

namespace Concolic

inductive Event where
  /-- The next input is stored at an address. -/
  | newInput (ty : CType) (address : Address)
  | alloc (id : InstructionId) (address : Address) (size : BitVec 64)
  | load (id : InstructionId) (address : Address) (ty : CType) (value : Value)
  /-- A load through the pointer on the stack. -/
  | deref (id : InstructionId) (address : Address) (ty : CType) (value : Value)
  | store (id : InstructionId) (address : Address)
  /-- A store through a pointer, which lies below the value. -/
  | write (id : InstructionId) (address : Address)
  | dropOperands (id : InstructionId)
  | unary (id : InstructionId) (op : UnaryOp) (ty : CType) (value : Value)
  | binary (id : InstructionId) (op : BinaryOp) (ty : CType) (value : Value)
  | compare (id : InstructionId) (op : CompareOp) (ty : CType) (value : Value)
  | pointer (id : InstructionId) (op : PointerOp) (size : BitVec 64) (value : Value)
  /-- An operation on two operands that only its result describes. -/
  | untracked (id : InstructionId) (ty : CType) (value : Value)
  | branch (id : InstructionId) (branch : BranchId) (taken : Bool)
  | call (id : InstructionId) (function : FunctionId)
  | ret (id : InstructionId)
  /-- The caller takes the result of a call. -/
  | takeResult (id : InstructionId) (ty : CType) (value : Value)
deriving DecidableEq, Repr

namespace Event

/-- Pointer arithmetic takes the size of the element from the type. -/
def ofOperator (id : InstructionId) (op : Operator) (ty : CType) (value : Value) : Event :=
  match op with
  | .unary op => .unary id op ty value
  | .binary op => .binary id op ty value
  | .compare op => .compare id op ty value
  | .pointer op => .pointer id op (.ofNat 64 ty.size) value
  | .untracked => .untracked id ty value

def ofTags (id : InstructionId) (operatorTag : Nat) (typeTag : Int) (value : Value) :
    Except Fault Event :=
  match Operator.ofTag? operatorTag with
  | none => .error (.unknownOperator id operatorTag)
  | some (.pointer op) => .error (.sizeExpected id op)
  | some op =>
    match CType.ofTag? typeTag with
    | none => .error (.unknownType id typeTag)
    | some ty => .ok (ofOperator id op ty value)

def ofPointerTag (id : InstructionId) (operatorTag : Nat) (size : BitVec 64) (value : Value) :
    Except Fault Event :=
  match Operator.ofTag? operatorTag with
  | some (.pointer op) => .ok (.pointer id op size value)
  | _ => .error (.notPointerOperator id operatorTag)

end Event

end Concolic
