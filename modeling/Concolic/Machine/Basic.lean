import Concolic.Memory.Read
import Concolic.Record

/-!
# The machine

The state of a run: a stack of operands, the functions entered, the global regions, and the record
so far.  Until the first input is asked for nothing can depend on inputs, and the stack and the
memory are not tracked.
-/

namespace Concolic

/-- What a load through a pointer that depends on inputs gives: the concrete value alone, or
whatever is bound at the concrete address.  Stores go to the concrete address either way. -/
inductive PointerPolicy where
  | forget
  | follow
deriving DecidableEq, Repr

/-- A function that was entered, and the instruction that called it. -/
structure Scope where
  function : FunctionId
  id : InstructionId
deriving DecidableEq, Repr

structure Machine where
  policy : PointerPolicy := .forget
  /-- The top comes first. -/
  stack : List Operand := []
  /-- The innermost comes first. -/
  scopes : List Scope := []
  /-- Sizes by address. -/
  globals : WordMap 64 (BitVec 64) := .empty
  record : Record := {}
  inputCount : Nat := 0
  /-- No input has been asked for yet. -/
  awaitingInput : Bool := true
  /-- The operand on the stack is a result that the caller has not taken yet. -/
  pendingReturn : Bool := false
  /-- How many accesses went through a pointer that depends on inputs. -/
  losses : Nat := 0
deriving DecidableEq

namespace Machine

def start (policy : PointerPolicy) (inputs : List Value) : Machine where
  policy := policy
  record := { inputs := inputs }

def depth (machine : Machine) : Nat :=
  machine.scopes.length

def memory (machine : Machine) : Memory :=
  machine.record.memory

def withMemory (machine : Machine) (memory : Memory) : Machine :=
  { machine with record.memory := memory }

def withPath (machine : Machine) (path : Path) : Machine :=
  { machine with record.path := path }

def push (machine : Machine) (operand : Operand) : Machine :=
  { machine with stack := operand :: machine.stack }

def pop (machine : Machine) (id : InstructionId) : Except Fault (Operand × Machine) :=
  match machine.stack with
  | [] => .error (.stackUnderflow id)
  | top :: rest => .ok (top, { machine with stack := rest })

def clear (machine : Machine) : Machine :=
  { machine with stack := [], pendingReturn := false }

end Machine

def PointerPolicy.read (policy : PointerPolicy) (memory : Memory) (address : Address)
    (ty : CType) (value : Value) : Except Fault Reading :=
  match policy with
  | .forget => .ok { operand := .concrete (.of ty value) }
  | .follow => memory.readReporting address ty value

end Concolic
