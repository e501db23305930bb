import Concolic.Record

/-!
# Notices and log lines

What an observer of a run is told about each event, and what is written to the log.
-/

namespace Concolic

inductive Notice where
  | newInput (id : InputId) (ty : CType) (address : Address) (value : Value)
  | memoryRead (id : InstructionId) (address : Address) (operand : Operand)
  | memoryWrite (id : InstructionId) (address : Address) (operand : Operand)
  /-- A branch, with its constraint if the condition depended on inputs. -/
  | branch (id : InstructionId) (branch : BranchId) (taken : Bool) (constraint : Option Constraint)
  | call (id : InstructionId) (function : FunctionId)
  | ret (id : InstructionId) (function : FunctionId)
  /-- An access through a pointer that depends on inputs, taken at its concrete address. -/
  | loss (id : InstructionId) (pointer : Expr) (address : Address)
deriving DecidableEq, Repr

inductive Level where
  | trace
  | debug
  | info
  | warn
deriving DecidableEq, Repr

structure LogLine where
  level : Level
  text : String
deriving DecidableEq, Repr

def Level.name : Level → String
  | .trace => "TRACE"
  | .debug => "DEBUG"
  | .info => "INFO"
  | .warn => "WARN"

end Concolic
