import Concolic.Memory.Basic

/-!
# Reading symbolic memory

A read combines the value that the program observed with the bindings it meets.  Of every binding
it takes the bytes inside the range.  In a scalar it drops those whose recorded bytes are not the
observed ones, since the program has changed them unseen; each is reported.  A binding that fills
the whole range is the result, converted where the types differ; anything else is assembled over
the observed bytes.
-/

namespace Concolic

/-- Bytes that no longer are what was recorded for them. -/
structure Stale where
  address : Address
  recorded : Value
  observed : Value
deriving DecidableEq, Repr

def Stale.text (stale : Stale) : String :=
  "stale binding at " ++ hex stale.address ++ ": recorded " ++ hex stale.recorded ++
    ", observed " ++ hex stale.observed

structure Reading where
  operand : Operand
  stale : List Stale := []
deriving DecidableEq, Repr

namespace Memory

/-- The bytes of a binding inside the range, with their offset in it.  `read?` checks the ends of
both. -/
def clip (address : Address) (length : Nat) (cell : Address × Expr) :
    Except Fault (BitVec 32 × Expr) := do
  let first := max cell.1.toNat address.toNat
  let past := min (cell.1.toNat + cell.2.bytes) (address.toNat + length)
  let part ← cell.2.mkSlice (.ofNat 32 (first - cell.1.toNat)) (.ofNat 32 (past - first))
  return (.ofNat 32 (first - address.toNat), part)

def recordedBytes (part : BitVec 32 × Expr) : Value :=
  byteRange part.2.value 0 part.2.bytes

def observedBytes (observed : Value) (part : BitVec 32 × Expr) : Value :=
  byteRange observed part.1.toNat part.2.bytes

def isFresh (observed : Value) (part : BitVec 32 × Expr) : Bool :=
  recordedBytes part == observedBytes observed part

def staleReport (address : Address) (observed : Value) (part : BitVec 32 × Expr) : Stale where
  address := address + part.1.setWidth 64
  recorded := recordedBytes part
  observed := observedBytes observed part

/-- The same bytes as a value of another type of that size. -/
def convert (e : Expr) (ty : CType) : Expr :=
  if e.ty = ty then e
  else
    let op : UnaryOp := if ty.isSigned then .signedCast else .unsignedCast
    .mkUnary op e ty (op.apply ty e.bits e.value)

/-- What the parts make of the observed value. -/
def combine (observed : TypedValue) (parts : List (BitVec 32 × Expr)) : Operand :=
  let assembled := Operand.symbolic <|
    .mkAssemble observed.ty (.ofNat 32 observed.bytes) parts observed.value
  if observed.ty.isStruct then assembled
  else
    match parts with
    | [] => .concrete observed
    | [(offset, e)] =>
      if offset = 0 ∧ e.bytes = observed.bytes then .symbolic (convert e observed.ty)
      else assembled
    | _ => assembled

/-- Reads a value of type `ty` that the program observed as `value`, or as many bytes as `value`
says if `ty` is an aggregate. -/
def readReporting (memory : Memory) (address : Address) (ty : CType) (value : Value) :
    Except Fault Reading :=
  let observed := TypedValue.of ty value
  let cells := if observed.bytes = 0 then [] else memory.bindingsIn address observed.bytes
  if cells.isEmpty then .ok { operand := .concrete observed }
  else do
    let parts ← cells.reverse.mapM (clip address observed.bytes)
    if ty.isStruct then return { operand := combine observed parts }
    else
      let fresh := parts.filter (isFresh observed.value)
      let stale := parts.filter fun part ↦ !isFresh observed.value part
      return {
        operand := combine observed fresh
        stale := stale.map (staleReport address observed.value) }

def read (memory : Memory) (address : Address) (ty : CType) (value : Value) :
    Except Fault Operand :=
  Reading.operand <$> memory.readReporting address ty value

end Memory

end Concolic
