import Concolic.Fault
import Concolic.Operand
import Concolic.WordMap

/-!
# Symbolic memory

The memory of the program as far as it depends on inputs: expressions bound to the addresses of
their first bytes.  Bytes under no binding have their concrete values.  The operations keep the
bindings apart from each other: whatever is stored first clears its range, and a binding that
reaches out of a cleared range keeps the bytes outside as slices.

The ends of ranges are sums of natural numbers here, and counts of bits have no bound.
`Memory.concretize?`, `Memory.store?` and `Memory.read?` check that machine words hold them: the
operations stand for those of a machine where the checked ones answer.
-/

namespace Concolic

/-- Cuts bytes out of an expression.  The whole of it is the expression itself, and a slice of a
slice is cut from the expression below, so that a slice that was cut here never stands directly
under another one.  `mkSlice?` checks that the bits can be counted. -/
def Expr.mkSlice (e : Expr) (offset bytes : BitVec 32) : Except Fault Expr :=
  if e.bytes < offset.toNat + bytes.toNat then
    .error (.sliceOutOfRange offset.toNat (offset.toNat + bytes.toNat) e.bytes)
  else if offset = 0 ∧ bytes.toNat = e.bytes then .ok e
  else
    match e with
    | .slice whole start _ _ => mkSlice whole (start + offset) bytes
    | e => .ok (.slice e offset bytes (byteRange e.value offset.toNat bytes.toNat))

structure Memory where
  cells : WordMap 64 Expr
deriving DecidableEq

namespace Memory

def empty : Memory := ⟨.empty⟩

instance : Inhabited Memory := ⟨empty⟩

def size (memory : Memory) : Nat :=
  memory.cells.size

def isEmpty (memory : Memory) : Bool :=
  memory.cells.isEmpty

def get? (memory : Memory) (address : Address) : Option Expr :=
  memory.cells.get? address

/-- The bindings that meet `length` bytes from `address` on, highest first.  The search goes down
from the end of the range and stops at the first binding below the range; the last address is
never searched.  `bindingsIn?` checks the ends of the bindings that it comes by. -/
def bindingsIn (memory : Memory) (address : Address) (length : Nat) : List (Address × Expr) :=
  let past := min (address.toNat + length) lastAddress
  let below := memory.cells.entries.filter fun cell ↦ cell.1.toNat < past
  below.reverse.takeWhile fun cell ↦ address.toNat < cell.1.toNat + cell.2.bytes

def isSymbolic (memory : Memory) (address : Address) (length : Nat) : Bool :=
  length != 0 && !(memory.bindingsIn address length).isEmpty

/-- Binds what an expression at `start` holds from the address `past` on.  `keepAbove?` checks the
end of the binding. -/
def keepAbove (past : Nat) (start : Address) (e : Expr) (cells : WordMap 64 Expr) :
    Except Fault (WordMap 64 Expr) :=
  let stop := start.toNat + e.bytes
  if past < stop then do
    let upper ← e.mkSlice (.ofNat 32 (past - start.toNat)) (.ofNat 32 (stop - past))
    return cells.insert (.ofNat 64 past) upper
  else .ok cells

/-- Binds what an expression at `start` holds below `address`. -/
def keepBelow (address start : Address) (e : Expr) (cells : WordMap 64 Expr) :
    Except Fault (WordMap 64 Expr) :=
  if start < address then do
    let lower ← e.mkSlice 0 (.ofNat 32 (address.toNat - start.toNat))
    return cells.insert start lower
  else .ok cells

/-- Takes the bytes of the range away from the binding at `start`, whose end `clearCell?` checks. -/
def clearCell (address : Address) (length : Nat) (cells : WordMap 64 Expr) (start : Address) :
    Except Fault (WordMap 64 Expr) :=
  match cells.get? start with
  | none => .ok cells
  | some e => do
    let above ← keepAbove (address.toNat + length) start e (cells.erase start)
    keepBelow address start e above

/-- Forgets what `length` bytes from `address` on depend on.  A machine stops or goes wrong where
the range wraps around, and `concretize?` has no answer there. -/
def concretize (memory : Memory) (address : Address) (length : Nat) : Except Fault Memory :=
  if length = 0 then .ok memory
  else do
    let starts := (memory.bindingsIn address length).map Prod.fst
    return ⟨← starts.foldlM (clearCell address length) memory.cells⟩

/-- Binds every part at its place in a region that starts at `address`. -/
def scatter (cells : WordMap 64 Expr) (address : Address) (parts : List (BitVec 32 × Expr)) :
    WordMap 64 Expr :=
  parts.foldl (fun cells part ↦ cells.insert (address + part.1.setWidth 64) part.2) cells

/-- Binds an expression.  An aggregate is bound part by part; a scalar must have the size of the
type. -/
def write (memory : Memory) (address : Address) (ty : CType) (e : Expr) : Except Fault Memory :=
  if ty.isStruct then do
    let cleared ← memory.concretize address e.bytes
    match e with
    | .assemble _ _ parts _ => return ⟨scatter cleared.cells address parts⟩
    | e => return ⟨cleared.cells.insert address e⟩
  else if e.bytes = ty.size then do
    let cleared ← memory.concretize address ty.size
    return ⟨cleared.cells.insert address e⟩
  else .error (.widthMismatch e ty)

/-- Stores an operand.  One that depends on no input leaves its bytes concrete. -/
def store (memory : Memory) (address : Address) (operand : Operand) : Except Fault Memory :=
  match operand with
  | .concrete typed => memory.concretize address typed.bytes
  | .symbolic e =>
    if e.isConcrete then memory.concretize address e.bytes
    else memory.write address e.ty e

/-- A line `address: expression` for every binding. -/
def text (memory : Memory) : String :=
  String.join <| memory.cells.entries.map fun cell ↦ hex cell.1 ++ ": " ++ cell.2.text ++ "\n"

end Memory

end Concolic
