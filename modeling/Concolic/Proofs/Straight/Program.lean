import Concolic.Machine.Event
import Concolic.Proofs.Memory.Layout
import Concolic.Proofs.Word.Bytes

/-!
# Straight-line programs

A program without jumps over a memory of bytes and a stack of typed values.  Loads and stores are
little-endian at addresses that the program fixes, inputs are taken in order, and a branch only
notes its direction.  A run on some inputs tells the machine what it does as a list of events.
-/

namespace Concolic.Straight

abbrev Bytes := Address → BitVec 8

/-- The number in `count` bytes, the lowest first. -/
def loadBytes (bytes : Bytes) (address : Address) : Nat → Value
  | 0 => 0
  | count + 1 => (bytes address).setWidth 64 ||| loadBytes bytes (address + 1) count <<< 8

/-- The low `count` bytes of a number stored from an address on. -/
def storeBytes (bytes : Bytes) (address : Address) (count : Nat) (value : Value) : Bytes :=
  fun byte ↦
    if InRange address.toNat (address.toNat + count) byte.toNat then
      byteAt value (byte.toNat - address.toNat)
    else bytes byte

structure State where
  bytes : Bytes
  /-- The top comes first. -/
  stack : List TypedValue := []
  /-- How many inputs were taken. -/
  consumed : Nat := 0
  /-- The directions of all branches so far. -/
  directions : List Bool := []

/-- The instructions, with the numbers under which the machine is told of them. -/
inductive Instr where
  | newInput (ty : CType) (address : Address)
  | load (id : InstructionId) (address : Address) (ty : CType)
  | deref (id : InstructionId) (address : Address) (ty : CType)
  | store (id : InstructionId) (address : Address)
  | write (id : InstructionId) (address : Address)
  | dropOperands (id : InstructionId)
  | unary (id : InstructionId) (op : UnaryOp) (ty : CType)
  | binary (id : InstructionId) (op : BinaryOp) (ty : CType)
  | compare (id : InstructionId) (op : CompareOp) (ty : CType)
  | pointer (id : InstructionId) (op : PointerOp) (size : BitVec 64)
  | branch (id : InstructionId) (site : BranchId)
deriving DecidableEq, Repr

namespace State

def start (bytes : Bytes) : State where
  bytes := bytes

/-- The value of a type at an address. -/
def fetch (state : State) (address : Address) (ty : CType) : TypedValue :=
  .of ty (loadBytes state.bytes address ty.size)

def top (state : State) : Value :=
  match state.stack with
  | typed :: _ => typed.value
  | [] => 0

/-- Replaces the two topmost values, the right one above the left one. -/
def onTwo (state : State) (combine : TypedValue → TypedValue → TypedValue) : Option State :=
  match state.stack with
  | rhs :: lhs :: rest => some { state with stack := combine lhs rhs :: rest }
  | _ => none

/-- One instruction; a missing operand or input stops the program. -/
def step (inputs : List Value) (state : State) : Instr → Option State
  | .newInput ty address =>
    match inputs[state.consumed]? with
    | some entry => some {
        state with
        bytes := storeBytes state.bytes address ty.size (ty.normalize entry)
        consumed := state.consumed + 1 }
    | none => none
  | .load _ address ty => some { state with stack := state.fetch address ty :: state.stack }
  | .deref _ address ty =>
    match state.stack with
    | _ :: rest => some { state with stack := state.fetch address ty :: rest }
    | [] => none
  | .store _ address =>
    match state.stack with
    | typed :: rest => some {
        state with bytes := storeBytes state.bytes address typed.bytes typed.value, stack := rest }
    | [] => none
  | .write _ address =>
    match state.stack with
    | typed :: _ :: rest => some {
        state with bytes := storeBytes state.bytes address typed.bytes typed.value, stack := rest }
    | _ => none
  | .dropOperands _ => some { state with stack := [] }
  | .unary _ op ty =>
    match state.stack with
    | operand :: rest => some {
        state with
        stack := .of ty (op.apply ty (8 * operand.bytes) operand.value) :: rest }
    | [] => none
  | .binary _ op ty => state.onTwo fun lhs rhs ↦ .of ty (op.apply ty lhs.value rhs.value)
  | .compare _ op ty => state.onTwo fun lhs rhs ↦
      .of ty (flag (op.apply (max (8 * lhs.bytes) (8 * rhs.bytes)) lhs.value rhs.value))
  | .pointer _ op size => state.onTwo fun lhs rhs ↦
      .of op.resultType (op.apply size lhs.value rhs.value)
  | .branch _ _ =>
    match state.stack with
    | condition :: rest => some {
        state with
        stack := rest
        directions := state.directions ++ [condition.value != 0] }
    | [] => none

def run (inputs : List Value) (state : State) : List Instr → Option State
  | [] => some state
  | instr :: rest => (state.step inputs instr).bind fun next ↦ run inputs next rest

end State

/-- What the machine is told of an instruction, with the result that the program computed. -/
def Instr.event (after : State) : Instr → Event
  | .newInput ty address => .newInput ty address
  | .load id address ty => .load id address ty after.top
  | .deref id address ty => .deref id address ty after.top
  | .store id address => .store id address
  | .write id address => .write id address
  | .dropOperands id => .dropOperands id
  | .unary id op ty => .unary id op ty after.top
  | .binary id op ty => .binary id op ty after.top
  | .compare id op ty => .compare id op ty after.top
  | .pointer id op size => .pointer id op size after.top
  | .branch id site => .branch id site (after.directions.getLast?.getD false)

/-- The events of a run, as far as it goes. -/
def State.events (inputs : List Value) (state : State) : List Instr → List Event
  | [] => []
  | instr :: rest =>
    match state.step inputs instr with
    | some next => instr.event next :: events inputs next rest
    | none => []

/-! ## Little-endian bytes -/

/-- The bytes of a loaded number are those in memory. -/
theorem byteAt_loadBytes (bytes : Bytes) {count index : Nat} (below : index < count)
    (narrow : count ≤ 8) (address : Address) :
    byteAt (loadBytes bytes address count) index = bytes (address + BitVec.ofNat 64 index) := by
  induction count generalizing address index with
  | zero => omega
  | succ count ih =>
    rw [loadBytes, byteAt_or_shiftLeft _ _ (by omega)]
    split
    · next first =>
      rw [first]
      exact congrArg bytes (BitVec.add_zero address).symm
    · next later =>
      rw [ih (by omega) (by omega)]
      congr 1
      have split : BitVec.ofNat 64 index = 1 + BitVec.ofNat 64 (index - 1) := by
        rw [show (1 : BitVec 64) = BitVec.ofNat 64 1 from rfl, ← BitVec.ofNat_add,
          show 1 + (index - 1) = index by omega]
      rw [split, BitVec.add_assoc]

end Concolic.Straight
