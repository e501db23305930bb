import Concolic.Codec.Format
import Concolic.Expr.Basic

/-!
# Expressions as bytes

A node is the number of its kind and its fields in order.  A reader builds nodes just as they
stand and checks nothing but the numbers of kinds, operators and types, and that there is room for
the parts of an assembly before it reads the first of them.  How much room there is depends on the
machine.
-/

namespace Concolic.Codec

def unaryOps : List UnaryOp :=
  [.negate, .logicalNot, .bitwiseNot, .unsignedCast, .signedCast]

def binaryOps : List BinaryOp :=
  [.add, .sub, .mul, .udiv, .sdiv, .urem, .srem, .shl, .lshr, .ashr, .and, .or, .xor]

def compareOps : List CompareOp :=
  [.eq, .ne, .ugt, .ule, .ult, .uge, .sgt, .sle, .slt, .sge]

def pointerOps : List PointerOp :=
  [.addIndex, .subIndex, .difference]

namespace Format

def ctype : Format CType := oneOf CType.all
def unaryOp : Format UnaryOp := oneOf unaryOps
def binaryOp : Format BinaryOp := oneOf binaryOps
def compareOp : Format CompareOp := oneOf compareOps
def pointerOp : Format PointerOp := oneOf pointerOps

end Format

mutual

def encodeTree : Expr → Bytes
  | .input id ty value =>
    encodeNumber 0 ++ Format.word32.encode id ++ Format.ctype.encode ty ++
      Format.signed64.encode value
  | .const ty value => encodeNumber 1 ++ Format.ctype.encode ty ++ Format.signed64.encode value
  | .unary op e ty value =>
    encodeNumber 2 ++ Format.unaryOp.encode op ++ encodeTree e ++ Format.ctype.encode ty ++
      Format.signed64.encode value
  | .binary op l r ty value =>
    encodeNumber 3 ++ Format.binaryOp.encode op ++ encodeTree l ++ encodeTree r ++
      Format.ctype.encode ty ++ Format.signed64.encode value
  | .compare op l r ty value =>
    encodeNumber 4 ++ Format.compareOp.encode op ++ encodeTree l ++ encodeTree r ++
      Format.ctype.encode ty ++ Format.signed64.encode value
  | .pointer op l r size value =>
    encodeNumber 5 ++ Format.pointerOp.encode op ++ encodeTree l ++ encodeTree r ++
      Format.word64.encode size ++ Format.signed64.encode value
  | .slice e offset bytes value =>
    encodeNumber 6 ++ encodeTree e ++ Format.word32.encode offset ++ Format.word32.encode bytes ++
      Format.signed64.encode value
  | .assemble ty size parts value =>
    encodeNumber 7 ++ Format.ctype.encode ty ++ Format.word32.encode size ++
      encodeNumber parts.length ++ encodeParts parts ++ Format.signed64.encode value

def encodeParts : List (BitVec 32 × Expr) → Bytes
  | [] => []
  | (offset, e) :: rest => Format.word32.encode offset ++ encodeTree e ++ encodeParts rest

end

/-- The most parts that a usual machine has room for at once. -/
def partLimit : Nat := 0x40000000

/-- The most parts whose room has a size below 2 to the 63. -/
def partBound : Nat := 0x400000000000000

/-- Sets room aside for parts that are still to be read: 16 bytes each, for a power of two of
them.  The machine has room for `room` parts. -/
def reserveParts (room count : Nat) : Reader Unit :=
  if partBound < count then Reader.fail .roomOverflow
  else if room < count then Reader.fail (.noRoom (16 * count.nextPowerOfTwo))
  else pure ()

/-- Reads a tree of at most `fuel` levels.  Every level takes a byte, so that fuel for each byte of
the input is enough, and the input is at its end where the fuel is. -/
def readTree (room : Nat) : Nat → Reader Expr
  | 0 => Reader.fail .unexpectedEnd
  | fuel + 1 => do
    match ← Format.readVariant 8 with
    | 0 =>
      return .input (← Format.word32.read) (← Format.ctype.read) (← Format.signed64.read)
    | 1 => return .const (← Format.ctype.read) (← Format.signed64.read)
    | 2 =>
      return .unary (← Format.unaryOp.read) (← readTree room fuel) (← Format.ctype.read)
        (← Format.signed64.read)
    | 3 =>
      return .binary (← Format.binaryOp.read) (← readTree room fuel) (← readTree room fuel)
        (← Format.ctype.read) (← Format.signed64.read)
    | 4 =>
      return .compare (← Format.compareOp.read) (← readTree room fuel) (← readTree room fuel)
        (← Format.ctype.read) (← Format.signed64.read)
    | 5 =>
      return .pointer (← Format.pointerOp.read) (← readTree room fuel) (← readTree room fuel)
        (← Format.word64.read) (← Format.signed64.read)
    | 6 =>
      return .slice (← readTree room fuel) (← Format.word32.read) (← Format.word32.read)
        (← Format.signed64.read)
    | _ =>
      let ty ← Format.ctype.read
      let size ← Format.word32.read
      let count ← readNumber
      reserveParts room count
      let parts ← Reader.many (return (← Format.word32.read, ← readTree room fuel)) count
      return .assemble ty size parts (← Format.signed64.read)

def Format.tree (room : Nat) : Format Expr where
  encode := encodeTree
  read := do readTree room (← get).length

theorem encodeParts_eq_flatMap (parts : List (BitVec 32 × Expr)) :
    encodeParts parts =
      parts.flatMap fun part ↦ Format.word32.encode part.1 ++ encodeTree part.2 := by
  induction parts with
  | nil => rfl
  | cons part rest ih => simp [encodeParts, ih]

end Concolic.Codec
