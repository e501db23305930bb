import Concolic.Machine.Basic
import Concolic.Machine.Event
import Concolic.Machine.Notice

/-!
# Steps of the machine

One function per kind of event takes a machine to the next one, with what the observer and the log
are told.  Before the first input most events change nothing; branches, calls, returns and
allocations are recorded all the same.  An event that comes out of order is a fault.
-/

namespace Concolic

structure Step where
  machine : Machine
  /-- The value of a new input. -/
  result : Option Value := none
  notices : List Notice := []
  log : List LogLine := []

namespace Machine

def callBranch : BranchId := -1
def returnBranch : BranchId := -2

def trace (id : InstructionId) (text : String) : LogLine :=
  ⟨.trace, atInstruction id text⟩

def staleLines (reading : Reading) : List LogLine :=
  reading.stale.map fun stale ↦ ⟨.debug, stale.text⟩

/-- The next input, bound at an address. -/
def newInput (machine : Machine) (ty : CType) (address : Address) : Except Fault Step :=
  if ty.isStruct then .error .structInput
  else
    let index := machine.inputCount
    match machine.record.inputs[index]? with
    | none => .error (.inputsExhausted index machine.record.inputs.length)
    | some entry => do
      let value := ty.normalize entry
      let id : InputId := .ofNat 32 index
      let memory ← machine.memory.write address ty (.mkInput id ty value)
      let record := { machine.record with vars := machine.record.vars.insert id ty, memory }
      let line := s!"input x{id.toNat}: {ty} = " ++ decimal value ++ " at " ++ hex address
      return {
        machine := { machine with record, inputCount := index + 1, awaitingInput := false }
        result := some value
        notices := [.newInput id ty address value]
        log := [⟨.debug, line⟩] }

/-- A global region; what was bound inside it is forgotten. -/
def alloc (machine : Machine) (id : InstructionId) (address : Address) (size : BitVec 64) :
    Except Fault Step := do
  let memory ← machine.memory.concretize address size.toNat
  let machine := machine.withMemory memory
  return {
    machine := { machine with globals := machine.globals.insert address size }
    log := [trace id ("alloc " ++ hex address ++ s!"+{size.toNat}")] }

/-- A load after a call whose result was not taken drops that result. -/
def load (machine : Machine) (id : InstructionId) (address : Address) (ty : CType)
    (value : Value) : Except Fault Step :=
  if machine.awaitingInput then .ok { machine }
  else do
    let ready := if machine.pendingReturn then machine.clear else machine
    let dropped :=
      if machine.pendingReturn then [trace id "discarding unhandled return value"] else []
    let reading ← machine.memory.readReporting address ty value
    return {
      machine := ready.push reading.operand
      notices := [.memoryRead id address reading.operand]
      log := trace id (s!"load {ty} at " ++ hex address) :: dropped ++ staleLines reading }

/-- An access through a pointer that depends on inputs is counted and told. -/
def loss (machine : Machine) (id : InstructionId) (pointer : Operand) (address : Address) : Step :=
  match pointer with
  | .concrete _ => { machine }
  | .symbolic e =>
    let line := s!"access through symbolic pointer {e} (concrete address " ++ hex address ++ ")"
    { machine := { machine with losses := machine.losses + 1 }
      notices := [.loss id e address]
      log := [⟨.debug, atInstruction id line⟩] }

def deref (machine : Machine) (id : InstructionId) (address : Address) (ty : CType)
    (value : Value) : Except Fault Step :=
  if machine.awaitingInput then .ok { machine }
  else do
    let (pointer, popped) ← machine.pop id
    let lost := popped.loss id pointer address
    let reading ←
      if pointer.isSymbolic then machine.policy.read machine.memory address ty value
      else machine.memory.readReporting address ty value
    return {
      machine := lost.machine.push reading.operand
      notices := lost.notices ++ [.memoryRead id address reading.operand]
      log := trace id (s!"deref {ty} at " ++ hex address) :: lost.log ++ staleLines reading }

def store (machine : Machine) (id : InstructionId) (address : Address) : Except Fault Step :=
  if machine.awaitingInput then .ok { machine }
  else do
    let (operand, popped) ← machine.pop id
    let memory ← machine.memory.store address operand
    return {
      machine := popped.withMemory memory
      notices := [.memoryWrite id address operand]
      log := [trace id ("store at " ++ hex address)] }

def write (machine : Machine) (id : InstructionId) (address : Address) : Except Fault Step :=
  if machine.awaitingInput then .ok { machine }
  else do
    let (operand, below) ← machine.pop id
    let (pointer, popped) ← below.pop id
    let lost := popped.loss id pointer address
    let memory ← machine.memory.store address operand
    return {
      machine := lost.machine.withMemory memory
      notices := .memoryWrite id address operand :: lost.notices
      log := trace id ("write at " ++ hex address) :: lost.log }

def dropOperands (machine : Machine) (id : InstructionId) : Except Fault Step :=
  if machine.awaitingInput then .ok { machine }
  else
    .ok {
      machine := machine.clear
      log := [trace id s!"clear {machine.stack.length} stack values"] }

/-! ## Operators -/

def applyUnary (op : UnaryOp) (operand : Operand) (ty : CType) (value : Value) : Operand :=
  match operand with
  | .concrete _ => .concrete (.of ty value)
  | .symbolic e => .symbolic (.mkUnary op e ty value)

/-- A plain operand beside a symbolic one becomes a constant of the result type. -/
def applyBinary (op : BinaryOp) (lhs rhs : Operand) (ty : CType) (value : Value) : Operand :=
  if lhs.isSymbolic || rhs.isSymbolic then
    .symbolic (.mkBinary op (lhs.lift ty) (rhs.lift ty) ty value)
  else .concrete (.of ty value)

/-- A plain operand beside a symbolic one becomes a constant of the type of the other. -/
def applyCompare (op : CompareOp) (lhs rhs : Operand) (ty : CType) (value : Value) : Operand :=
  if lhs.isSymbolic || rhs.isSymbolic then
    .symbolic (.mkCompare op (lhs.lift rhs.ty) (rhs.lift lhs.ty) ty value)
  else .concrete (.of ty value)

/-- A plain operand beside a symbolic one becomes an address or a distance as the operator has it. -/
def applyPointer (op : PointerOp) (lhs rhs : Operand) (size : BitVec 64) (value : Value) :
    Operand :=
  if lhs.isSymbolic || rhs.isSymbolic then
    .symbolic (.mkPointer op (lhs.lift .pointer) (rhs.lift op.rightType) size value)
  else .concrete (.of op.resultType value)

def unary (machine : Machine) (id : InstructionId) (op : UnaryOp) (ty : CType) (value : Value) :
    Except Fault Step :=
  if machine.awaitingInput then .ok { machine }
  else do
    let (operand, popped) ← machine.pop id
    return { machine := popped.push (applyUnary op operand ty value) }

/-- Replaces the two topmost operands, the right one above the left one. -/
def onTwo (machine : Machine) (id : InstructionId) (combine : Operand → Operand → Operand) :
    Except Fault Step :=
  if machine.awaitingInput then .ok { machine }
  else do
    let (rhs, below) ← machine.pop id
    let (lhs, popped) ← below.pop id
    return { machine := popped.push (combine lhs rhs) }

def binary (machine : Machine) (id : InstructionId) (op : BinaryOp) (ty : CType) (value : Value) :
    Except Fault Step :=
  machine.onTwo id fun lhs rhs ↦ applyBinary op lhs rhs ty value

def compare (machine : Machine) (id : InstructionId) (op : CompareOp) (ty : CType)
    (value : Value) : Except Fault Step :=
  machine.onTwo id fun lhs rhs ↦ applyCompare op lhs rhs ty value

def pointer (machine : Machine) (id : InstructionId) (op : PointerOp) (size : BitVec 64)
    (value : Value) : Except Fault Step :=
  machine.onTwo id fun lhs rhs ↦ applyPointer op lhs rhs size value

def untracked (machine : Machine) (id : InstructionId) (ty : CType) (value : Value) :
    Except Fault Step :=
  if machine.awaitingInput then .ok { machine }
  else do
    let (rhs, below) ← machine.pop id
    let (lhs, popped) ← below.pop id
    return {
      machine := popped.push (.concrete (.of ty value))
      log :=
        if lhs.isSymbolic || rhs.isSymbolic then [trace id "symbolic operand concretized"]
        else [] }

/-! ## Control -/

/-- A branch that no input decides. -/
def plainBranch (machine : Machine) (id : InstructionId) (branch : BranchId) (taken : Bool)
    (reason : String) : Step where
  machine := machine.withPath (machine.record.path.push branch)
  notices := [.branch id branch taken none]
  log := [trace id (s!"branch {branch.toInt} (" ++ reason ++ ")")]

/-- A branch on a condition that depends on inputs; a direction that does not fit the recorded
value of the condition is taken over, with a warning. -/
def symbolicBranch (machine : Machine) (id : InstructionId) (branch : BranchId) (taken : Bool)
    (e : Expr) : Step :=
  let condition := e.condition
  let path := machine.record.path.pushConstraint branch condition taken
  let surprise :=
    s!"branch {branch.toInt} taken={taken} but {condition} evaluates to " ++
      decimal condition.value
  { machine := machine.withPath path
    notices := [.branch id branch taken path.constraints.getLast?]
    log :=
      (if (condition.value != 0) == taken then []
        else [⟨.warn, atInstruction id surprise⟩]) ++
      [⟨.debug, s!"branch {branch.toInt}: {condition} (taken={taken})"⟩] }

def branch (machine : Machine) (id : InstructionId) (branch : BranchId) (taken : Bool) :
    Except Fault Step :=
  if machine.awaitingInput then .ok (machine.plainBranch id branch taken "pre-symbolic")
  else
    match machine.stack with
    | [.concrete _] =>
      .ok (plainBranch { machine with stack := [] } id branch taken "concrete")
    | [.symbolic e] => .ok (symbolicBranch { machine with stack := [] } id branch taken e)
    | _ => .error (.branchPending id branch)

def call (machine : Machine) (id : InstructionId) (function : FunctionId) : Except Fault Step :=
  let entered := machine.clear.withPath (machine.record.path.push callBranch)
  .ok {
    machine := { entered with scopes := ⟨function, id⟩ :: machine.scopes }
    notices := [.call id function]
    log := [trace id s!"call {function.toNat}"] }

/-- Leaves the innermost function.  A single operand on the stack is its result. -/
def ret (machine : Machine) (id : InstructionId) : Except Fault Step :=
  match machine.scopes with
  | [] => .error (.returnWithoutCall id)
  | scope :: scopes =>
    let left := { machine.withPath (machine.record.path.push returnBranch) with scopes }
    let step (machine : Machine) : Step :=
      { machine
        notices := [.ret id scope.function]
        log := [trace id s!"return from {scope.function.toNat}"] }
    if machine.awaitingInput then .ok (step left)
    else if machine.stack.length ≤ 1 then
      .ok (step { left with pendingReturn := machine.stack.length = 1 })
    else .error (.returnPending id machine.stack.length)

/-- The result of the call just left, or the value observed if nothing is pending. -/
def takeResult (machine : Machine) (id : InstructionId) (ty : CType) (value : Value) :
    Except Fault Step :=
  if machine.awaitingInput then .ok { machine }
  else if machine.pendingReturn then
    if machine.stack.length = 1 then .ok { machine := { machine with pendingReturn := false } }
    else .error (.returnValueLost id)
  else
    .ok {
      machine := { machine with stack := [.concrete (.of ty value)] }
      log := [trace id ("concrete return value " ++ decimal value)] }

def step (machine : Machine) : Event → Except Fault Step
  | .newInput ty address => machine.newInput ty address
  | .alloc id address size => machine.alloc id address size
  | .load id address ty value => machine.load id address ty value
  | .deref id address ty value => machine.deref id address ty value
  | .store id address => machine.store id address
  | .write id address => machine.write id address
  | .dropOperands id => machine.dropOperands id
  | .unary id op ty value => machine.unary id op ty value
  | .binary id op ty value => machine.binary id op ty value
  | .compare id op ty value => machine.compare id op ty value
  | .pointer id op size value => machine.pointer id op size value
  | .untracked id ty value => machine.untracked id ty value
  | .branch id branch taken => machine.branch id branch taken
  | .call id function => machine.call id function
  | .ret id => machine.ret id
  | .takeResult id ty value => machine.takeResult id ty value

/-- A run over events in order, up to the first fault. -/
def run (machine : Machine) : List Event → Except Fault Machine
  | [] => .ok machine
  | event :: rest => do
    let step ← machine.step event
    run step.machine rest

end Machine

end Concolic
