import Concolic.Expr.Text

/-!
# Faults

What stops an operation for good: bytes or types that do not fit, events that come out of order,
and terms that have no bit-vector form.
-/

namespace Concolic

inductive Fault where
  /-- Bytes `first` to `past` of an expression that has only `bytes`. -/
  | sliceOutOfRange (first past bytes : Nat)
  | widthMismatch (e : Expr) (ty : CType)
  | structTerm (size : Nat)
  | stackUnderflow (id : InstructionId)
  | unknownOperator (id : InstructionId) (tag : Nat)
  | unknownType (id : InstructionId) (tag : Int)
  | sizeExpected (id : InstructionId) (op : PointerOp)
  | notPointerOperator (id : InstructionId) (tag : Nat)
  | branchPending (id : InstructionId) (branch : BranchId)
  | returnWithoutCall (id : InstructionId)
  | returnPending (id : InstructionId) (pending : Nat)
  | returnValueLost (id : InstructionId)
  | structInput
  | inputsExhausted (index supplied : Nat)
deriving DecidableEq, Repr

def atInstruction (id : InstructionId) (text : String) : String :=
  "instruction " ++ toString id.toInt ++ ": " ++ text

namespace Fault

def message : Fault → String
  | .sliceOutOfRange first past bytes =>
    s!"extract of bytes {first}..{past} from a {bytes}-byte expression"
  | .widthMismatch e ty => s!"cannot store {e.bytes}-byte expression {e} as {ty}"
  | .structTerm size => s!"unsupported operation: bit-blasting a {size}-byte struct"
  | .stackUnderflow id => atInstruction id "evaluation stack underflow"
  | .unknownOperator id tag => atInstruction id s!"unknown operator tag {tag}"
  | .unknownType id tag => atInstruction id s!"unknown type tag {tag}"
  | .sizeExpected id op =>
    atInstruction id s!"pointer operator {op.name} takes an element size, not a type tag"
  | .notPointerOperator id tag => atInstruction id s!"{tag} is not a pointer operator tag"
  | .branchPending id branch =>
    atInstruction id s!"branch {branch.toInt} expects exactly one pending value"
  | .returnWithoutCall id => atInstruction id "return without a matching call"
  | .returnPending id pending => atInstruction id s!"{pending} values pending at return"
  | .returnValueLost id => atInstruction id "return value lost before it was handled"
  | .structInput => "symbolic inputs must be scalars"
  | .inputsExhausted index supplied =>
    s!"symbolic input {index} requested but only {supplied} input values were supplied"

instance : ToString Fault := ⟨message⟩

end Fault

end Concolic
